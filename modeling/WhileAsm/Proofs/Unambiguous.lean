import WhileAsm.Proofs.Legible

/-!
# An outline tells the program

An outline shows no referents. In a tree in which every reference means the innermost declaration of
its name around it, the shape tells them: if two such trees have the same shape, two references at
the same address with the same name mean declarations that stand at the same address
(`Block.Lexical.same_declaration`). So the place of one corresponds to the place of the other
(`Block.Lexical.exists_correspondence`), and one tree is recast to the other (`Block.recast_eq`).
-/

namespace WhileAsm

/-! ## Trees of the same shape -/

theorem Stmt.recastAll_eq_map (g : Guise) (ss : List Stmt) :
    Stmt.recastAll g ss = ss.map (Stmt.recast g) := by
  induction ss with
  | nil => rw [Stmt.recastAll, List.map_nil]
  | cons st ss ih => rw [Stmt.recastAll, List.map_cons, ih]

theorem Stmt.recast_loop (g : Guise) (pos : Position) (cond : Expr) (body : Option Block) :
    (Stmt.loop pos cond body).recast g
      = .loop default (cond.recast g) (body.map (Block.recast g)) := by
  cases body <;> simp [Stmt.recast]

theorem Stmt.inner?_recast (g : Guise) (st : Stmt) :
    (st.recast g).inner? = st.inner?.map (Block.recast g) := by
  cases st with
  | loop => rw [Stmt.recast_loop, Stmt.inner?, Stmt.inner?]
  | _ => simp [Stmt.recast, Stmt.inner?]

theorem Stmt.initials_recast (g : Guise) (st : Stmt) : (st.recast g).initials = st.initials := by
  cases st with
  | loop => rw [Stmt.recast_loop, Stmt.initials, Stmt.initials]
  | _ => simp [Stmt.recast, Stmt.initials]

theorem Stmt.initials_of_shape {st st' : Stmt} (h : st.recast .plain = st'.recast .plain) :
    st.initials = st'.initials := by
  rw [← st.initials_recast .plain, h, Stmt.initials_recast]

namespace Block

variable {b b' : Block} {a : List ℕ} {i : ℕ} {d : Decl}

theorem stmts_recast (g : Guise) (b : Block) :
    (b.recast g).stmts = b.stmts.map (Stmt.recast g) := by
  obtain ⟨pos, ss⟩ := b
  rw [Block.recast, ← Stmt.recastAll_eq_map]
  rfl

theorem child?_recast (g : Guise) (b : Block) (j : ℕ) :
    (b.recast g).child? j = (b.child? j).map (Block.recast g) := by
  unfold child?
  rw [stmts_recast, List.getElem?_map]
  cases b.stmts[j]? with
  | none => rfl
  | some st => exact st.inner?_recast g

theorem at?_recast (g : Guise) : ∀ (b : Block) (a : List ℕ),
    (b.recast g).at? a = (b.at? a).map (Block.recast g)
  | b, [] => by simp [at?]
  | b, j :: a => by
    rw [at?, at?, child?_recast]
    cases b.child? j with
    | none => rfl
    | some c => exact at?_recast g c a

/-- Where one of two trees of the same shape has a declaration, so has the other. -/
theorem DeclaresAt.same_shape (hshape : b.recast .plain = b'.recast .plain)
    (h : b.DeclaresAt a i d) :
    ∃ d', b'.DeclaresAt a i d' ∧ d.name = d'.name ∧ d.type = d'.type := by
  obtain ⟨c, hc, hi⟩ := h
  have hat := at?_recast .plain b' a
  rw [← hshape, at?_recast, hc] at hat
  obtain ⟨c', hc', hsame⟩ := Option.map_eq_some_iff.1 hat.symm
  have hstmts := congrArg (fun c => c.stmts[i]?) hsame
  simp only [stmts_recast, List.getElem?_map, hi] at hstmts
  obtain ⟨st', hst', hdecl⟩ := Option.map_eq_some_iff.1 hstmts
  have hkind := Stmt.initials_of_shape hdecl
  cases st' with
  | decl d' =>
    simp only [Stmt.recast, Guise.plain, Stmt.decl.injEq, Decl.mk.injEq] at hdecl
    exact ⟨d', ⟨c', hc', hst'⟩, hdecl.2.1.symm, hdecl.2.2.1.symm⟩
  | _ => simp [Stmt.initials] at hkind

theorem DeclaresAt.unique {d' : Decl} (h : b.DeclaresAt a i d) (h' : b.DeclaresAt a i d') :
    d = d' := by
  obtain ⟨c, hc, hi⟩ := h
  obtain ⟨c', hc', hi'⟩ := h'
  cases hc.symm.trans hc'
  cases hi.symm.trans hi'
  rfl

end Block

/-! ## The same names mean corresponding declarations -/

namespace Block.Lexical

variable {b b' : Block} {a : List ℕ} {ref ref' : VarRef}

/-- A reference means no declaration further out than one of its name in the other tree. -/
theorem length_le {a₀ a₁ : List ℕ} {i : ℕ} {d : Decl} {name : String}
    (hshape : b.recast .plain = b'.recast .plain) (hpre : a₀ <+: a)
    (hdecl : b.DeclaresAt a₀ i d) (hname : d.name = name)
    (hclear : b'.Undeclared a (a₁.length + 1) name) : a₀.length ≤ a₁.length := by
  obtain ⟨d', hdecl', hname', -⟩ := hdecl.same_shape hshape
  by_contra hlt
  exact hclear a₀ i d' hpre (by omega) hdecl' (hname'.symm.trans hname)

theorem same_declaration (h : b.Lexical) (h' : b'.Lexical)
    (hshape : b.recast .plain = b'.recast .plain) (href : b.RefersAt a ref)
    (href' : b'.RefersAt a ref') (hname : ref.name = ref'.name) :
    ∃ a₀ i d d', ref.referent = some d ∧ ref'.referent = some d' ∧ b.DeclaresAt a₀ i d
      ∧ b'.DeclaresAt a₀ i d' := by
  obtain ⟨d, a₀, i, hd, hdname, hpre, hdecl, hclear⟩ := h.resolved href
  obtain ⟨d', a₁, j, hd', hdname', hpre', hdecl', hclear'⟩ := h'.resolved href'
  rw [hname] at hdname hclear
  -- Neither block is inside the other, as each declares the name in both trees.
  have hle := length_le hshape hpre hdecl hdname hclear'
  have hge := length_le hshape.symm hpre' hdecl' hdname' hclear
  obtain rfl : a₀ = a₁ :=
    List.IsPrefix.eq_of_length (List.prefix_of_prefix_length_le hpre hpre' hle) (by omega)
  obtain ⟨d₁, hdecl₁, hname₁, -⟩ := hdecl.same_shape hshape
  obtain rfl : i = j := h'.distinct hdecl₁ hdecl' (by rw [← hname₁, hdname, hdname'])
  exact ⟨a₀, i, d, d', hd, hd', hdecl, hdecl'⟩

/-- The places of declarations that stand at the same address correspond. -/
theorem exists_correspondence (h : b.Lexical) (b' : Block) : ∃ f : Path → Path,
    ∀ {a i d d'}, b.DeclaresAt a i d → b'.DeclaresAt a i d' → f d.place = d'.place := by
  have hplace : ∀ x : Path, ∃ y : Path, ∀ {a i d d'}, b.DeclaresAt a i d →
      b'.DeclaresAt a i d' → d.place = x → d'.place = y := by
    intro x
    by_cases hx : ∃ a i d d', b.DeclaresAt a i d ∧ b'.DeclaresAt a i d' ∧ d.place = x
    · obtain ⟨a, i, d, d', hd, hd', hx⟩ := hx
      refine ⟨d'.place, fun {a₁ i₁ d₁ d₁'} hd₁ hd₁' hx₁ => ?_⟩
      obtain ⟨rfl, rfl⟩ := h.identity hd₁ hd (hx₁.trans hx.symm)
      rw [hd₁'.unique hd']
    · exact ⟨x, fun hd hd' hx₁ => absurd ⟨_, _, _, _, hd, hd', hx₁⟩ hx⟩
  choose f hf using hplace
  exact ⟨f, fun hd hd' => (hf _ hd hd' rfl).symm⟩

end Block.Lexical

/-! ## From the shape to the tree -/

/-- Two guises make the same of what corresponds in two trees. -/
structure Block.Agree (g g' : Guise) (b b' : Block) : Prop where
  refs : ∀ {a ref ref'}, b.RefersAt a ref → b'.RefersAt a ref' → ref.name = ref'.name →
    g.ref ref = g'.ref ref'
  decls : ∀ {a i d d'}, b.DeclaresAt a i d → b'.DeclaresAt a i d' → g.decl d = g'.decl d'

structure Stmt.Agree (g g' : Guise) (st st' : Stmt) : Prop where
  refs : ∀ {ref ref'}, ref ∈ st.mentions → ref' ∈ st'.mentions → ref.name = ref'.name →
    g.ref ref = g'.ref ref'
  decls : ∀ {d d'}, st = .decl d → st' = .decl d' → g.decl d = g'.decl d'
  inner : ∀ {c c'}, st.inner? = some c → st'.inner? = some c' → Block.Agree g g' c c'

section Agree

variable {g g' : Guise}

theorem Block.Agree.stmt {b b' : Block} (h : Block.Agree g g' b b') {j : ℕ} {st st' : Stmt}
    (hst : b.stmts[j]? = some st) (hst' : b'.stmts[j]? = some st') : Stmt.Agree g g' st st' where
  refs hmem hmem' hname := by
    refine h.refs (a := []) (Block.refersAt_nil.2 ?_) (Block.refersAt_nil.2 ?_) hname
    · exact ⟨st, List.mem_of_getElem? hst, hmem⟩
    · exact ⟨st', List.mem_of_getElem? hst', hmem'⟩
  decls hd hd' := by
    subst hd hd'
    exact h.decls (Block.declaresAt_nil.2 hst) (Block.declaresAt_nil.2 hst')
  inner {c c'} hc hc' := by
    have hchild : b.child? j = some c := by simp [Block.child?, hst, hc]
    have hchild' : b'.child? j = some c' := by simp [Block.child?, hst', hc']
    refine ⟨fun href href' => ?_, fun hd hd' => ?_⟩
    · exact h.refs (Block.refersAt_cons.2 ⟨c, hchild, href⟩)
        (Block.refersAt_cons.2 ⟨c', hchild', href'⟩)
    · exact h.decls (Block.declaresAt_cons.2 ⟨c, hchild, hd⟩)
        (Block.declaresAt_cons.2 ⟨c', hchild', hd'⟩)

theorem map_eq_map_of {α β γ : Type} {k : α → β} {f f' : α → γ} : ∀ {xs xs' : List α},
    xs.map k = xs'.map k → (∀ x ∈ xs, ∀ x' ∈ xs', k x = k x' → f x = f' x') →
      xs.map f = xs'.map f'
  | [], [], _, _ => rfl
  | [], _ :: _, h, _ => by simp at h
  | _ :: _, [], h, _ => by simp at h
  | x :: xs, x' :: xs', h, hf => by
    obtain ⟨hx, hxs⟩ := List.cons.inj h
    have hrest := map_eq_map_of hxs fun y hy y' hy' =>
      hf y (List.mem_cons_of_mem _ hy) y' (List.mem_cons_of_mem _ hy')
    rw [List.map_cons, List.map_cons, hf x List.mem_cons_self x' List.mem_cons_self hx, hrest]

theorem VarRef.recast_eq {ref ref' : Option VarRef}
    (hshape : ref.map Guise.plain.ref = ref'.map Guise.plain.ref)
    (h : ∀ r ∈ ref, ∀ r' ∈ ref', r.name = r'.name → g.ref r = g'.ref r') :
    ref.map g.ref = ref'.map g'.ref := by
  cases ref with
  | none =>
    cases ref' with
    | none => rfl
    | some r' => simp at hshape
  | some r =>
    cases ref' with
    | none => simp at hshape
    | some r' =>
      simp only [Option.map_some, Guise.plain, Option.some.injEq, VarRef.mk.injEq,
        and_true] at hshape
      rw [Option.map_some, Option.map_some, h r rfl r' rfl hshape]

theorem Expr.recast_eq : ∀ {e e' : Expr}, e.recast .plain = e'.recast .plain →
    (∀ ref ∈ e.mentions, ∀ ref' ∈ e'.mentions, ref.name = ref'.name → g.ref ref = g'.ref ref') →
      e.recast g = e'.recast g' := by
  intro e
  induction e with
  | int | bool | gap =>
    intro e' hshape _
    cases e' <;> simp_all [recast]
  | var ref =>
    intro e' hshape h
    cases e' with
    | var ref' =>
      simp only [recast, Guise.plain, Expr.var.injEq, VarRef.mk.injEq, and_true] at hshape
      rw [recast, recast, h ref (by simp [mentions]) ref' (by simp [mentions]) hshape]
    | _ => simp [recast] at hshape
  | unary pos op x ih =>
    intro e' hshape h
    cases e' with
    | unary pos' op' x' =>
      simp only [recast, Expr.unary.injEq, true_and] at hshape
      rw [recast, recast, hshape.1, ih hshape.2 h]
    | _ => simp [recast] at hshape
  | binary pos op x y ihx ihy =>
    intro e' hshape h
    cases e' with
    | binary pos' op' x' y' =>
      simp only [recast, Expr.binary.injEq, true_and] at hshape
      rw [recast, recast, hshape.1,
        ihx hshape.2.1 fun r hr r' hr' =>
          h r (List.mem_append_left _ hr) r' (List.mem_append_left _ hr'),
        ihy hshape.2.2 fun r hr r' hr' =>
          h r (List.mem_append_right _ hr) r' (List.mem_append_right _ hr')]
    | _ => simp [recast] at hshape

mutual

theorem Stmt.recast_eq : ∀ {st st' : Stmt}, st.recast .plain = st'.recast .plain →
    Stmt.Agree g g' st st' → st.recast g = st'.recast g'
  | .block b, st', hshape, h => by
    have hkind := Stmt.initials_of_shape hshape
    cases st' with
    | block b' =>
      simp only [Stmt.recast, Stmt.block.injEq] at hshape
      rw [Stmt.recast, Stmt.recast, Block.recast_eq hshape (h.inner rfl rfl)]
    | _ => simp [Stmt.initials] at hkind
  | .decl d, st', hshape, h => by
    have hkind := Stmt.initials_of_shape hshape
    cases st' with
    | decl d' => rw [Stmt.recast, Stmt.recast, h.decls rfl rfl]
    | _ => simp [Stmt.initials] at hkind
  | .assign _ target source, st', hshape, h => by
    have hkind := Stmt.initials_of_shape hshape
    cases st' with
    | assign _ target' source' =>
      simp only [Stmt.recast, Stmt.assign.injEq, true_and] at hshape
      have htarget : target.map g.ref = target'.map g'.ref :=
        VarRef.recast_eq hshape.1 fun r hr r' hr' =>
          h.refs (List.mem_append_left _ (Option.mem_toList.2 hr))
            (List.mem_append_left _ (Option.mem_toList.2 hr'))
      have hsource : source.recast g = source'.recast g' :=
        Expr.recast_eq hshape.2 fun r hr r' hr' =>
          h.refs (List.mem_append_right _ hr) (List.mem_append_right _ hr')
      rw [Stmt.recast, Stmt.recast, htarget, hsource]
    | _ => simp [Stmt.initials] at hkind
  | .read _ refs, st', hshape, h => by
    have hkind := Stmt.initials_of_shape hshape
    cases st' with
    | read _ refs' =>
      simp only [Stmt.recast, Stmt.read.injEq, true_and] at hshape
      have hrefs : refs.map (Option.map g.ref) = refs'.map (Option.map g'.ref) :=
        map_eq_map_of hshape fun ref href ref' href' hsame =>
          VarRef.recast_eq hsame fun r hr r' hr' => h.refs (List.mem_filterMap.2 ⟨ref, href, hr⟩)
            (List.mem_filterMap.2 ⟨ref', href', hr'⟩)
      rw [Stmt.recast, Stmt.recast, hrefs]
    | _ => simp [Stmt.initials] at hkind
  | .write _ es, st', hshape, h => by
    have hkind := Stmt.initials_of_shape hshape
    cases st' with
    | write _ es' =>
      simp only [Stmt.recast, Stmt.write.injEq, true_and] at hshape
      have hes : es.map (Expr.recast g) = es'.map (Expr.recast g') :=
        map_eq_map_of hshape fun e he e' he' hsame =>
          Expr.recast_eq hsame fun r hr r' hr' => h.refs (List.mem_flatMap.2 ⟨e, he, hr⟩)
            (List.mem_flatMap.2 ⟨e', he', hr'⟩)
      rw [Stmt.recast, Stmt.recast, hes]
    | _ => simp [Stmt.initials] at hkind
  | .loop _ cond none, st', hshape, h => by
    have hkind := Stmt.initials_of_shape hshape
    cases st' with
    | loop _ cond' body' =>
      simp only [Stmt.recast_loop, Stmt.loop.injEq, Option.map_none, true_and] at hshape
      have hcond : cond.recast g = cond'.recast g' :=
        Expr.recast_eq hshape.1 fun r hr r' hr' => h.refs hr hr'
      rw [Stmt.recast_loop, Stmt.recast_loop, hcond, Option.map_eq_none_iff.1 hshape.2.symm]
      rfl
    | _ => simp [Stmt.initials] at hkind
  | .loop _ cond (some b), st', hshape, h => by
    have hkind := Stmt.initials_of_shape hshape
    cases st' with
    | loop _ cond' body' =>
      simp only [Stmt.recast_loop, Stmt.loop.injEq, Option.map_some, true_and] at hshape
      obtain ⟨b', rfl, hb'⟩ := Option.map_eq_some_iff.1 hshape.2.symm
      have hcond : cond.recast g = cond'.recast g' :=
        Expr.recast_eq hshape.1 fun r hr r' hr' => h.refs hr hr'
      rw [Stmt.recast, Stmt.recast, hcond, Block.recast_eq hb'.symm (h.inner rfl rfl)]
    | _ => simp [Stmt.initials] at hkind
  | .gap x, st', hshape, h => by
    have hkind := Stmt.initials_of_shape hshape
    cases st' with
    | gap x' => simpa [Stmt.recast] using hshape
    | _ => simp [Stmt.initials] at hkind

theorem Block.recast_eq : ∀ {b b' : Block}, b.recast .plain = b'.recast .plain →
    Block.Agree g g' b b' → b.recast g = b'.recast g'
  | .mk _ ss, .mk _ ss', hshape, h => by
    simp only [Block.recast, Block.mk.injEq, true_and] at hshape
    have hss : Stmt.recastAll g ss = Stmt.recastAll g' ss' :=
      Stmt.recastAll_eq hshape fun j st st' hst hst' => h.stmt hst hst'
    rw [Block.recast, Block.recast, hss]

theorem Stmt.recastAll_eq : ∀ {ss ss' : List Stmt},
    Stmt.recastAll .plain ss = Stmt.recastAll .plain ss' →
    (∀ (j : ℕ) st st', ss[j]? = some st → ss'[j]? = some st' → Stmt.Agree g g' st st') →
      Stmt.recastAll g ss = Stmt.recastAll g' ss'
  | [], [], _, _ => rfl
  | [], _ :: _, hshape, _ => by simp [Stmt.recastAll] at hshape
  | _ :: _, [], hshape, _ => by simp [Stmt.recastAll] at hshape
  | st :: ss, st' :: ss', hshape, h => by
    simp only [Stmt.recastAll, List.cons.injEq] at hshape
    rw [Stmt.recastAll, Stmt.recastAll, Stmt.recast_eq hshape.1 (h 0 st st' rfl rfl),
      Stmt.recastAll_eq hshape.2 fun j => h (j + 1)]

end

end Agree

/-- The places of the variables that a tree declares. -/
def Block.declared (b : Block) : Set Path := {q | ∃ a i d, b.DeclaresAt a i d ∧ d.place = q}

theorem Block.Lexical.exists_recast {b b' : Block} (h : b.Lexical) (h' : b'.Lexical)
    (hshape : b.recast .plain = b'.recast .plain) : ∃ f : Path → Path,
      Set.BijOn f b.declared b'.declared
        ∧ b.recast (.of id id f) = b'.recast (.of id id id) := by
  obtain ⟨f, hf⟩ := h.exists_correspondence b'
  have hdecl : ∀ {a i d d'}, b.DeclaresAt a i d → b'.DeclaresAt a i d' →
      (Guise.of id id f).decl d = (Guise.of id id id).decl d' := by
    intro a i d d' hd hd'
    obtain ⟨d₁, hd₁, hname, htype⟩ := hd.same_shape hshape
    obtain rfl := hd₁.unique hd'
    simp [Guise.of, hname, htype, hf hd hd₁]
  refine ⟨f, ⟨?_, ?_, ?_⟩, Block.recast_eq hshape ⟨?_, hdecl⟩⟩
  · rintro _ ⟨a, i, d, hd, rfl⟩
    obtain ⟨d', hd', -⟩ := hd.same_shape hshape
    exact ⟨a, i, d', hd', (hf hd hd').symm⟩
  · rintro _ ⟨a₁, i₁, d₁, hd₁, rfl⟩ _ ⟨a₂, i₂, d₂, hd₂, rfl⟩ heq
    obtain ⟨d₁', hd₁', -⟩ := hd₁.same_shape hshape
    obtain ⟨d₂', hd₂', -⟩ := hd₂.same_shape hshape
    rw [hf hd₁ hd₁', hf hd₂ hd₂'] at heq
    obtain ⟨rfl, rfl⟩ := h'.identity hd₁' hd₂' heq
    rw [hd₁.unique hd₂]
  · rintro _ ⟨a, i, d', hd', rfl⟩
    obtain ⟨d, hd, -⟩ := hd'.same_shape hshape.symm
    exact ⟨d.place, ⟨a, i, d, hd, rfl⟩, hf hd hd'⟩
  · intro a ref ref' href href' hname
    obtain ⟨a₀, i, d, d', hd, hd', hat, hat'⟩ := h.same_declaration h' hshape href href' hname
    have hsame := hdecl hat hat'
    simp only [Guise.of] at hsame ⊢
    rw [hd, hd', hname, Option.map_some, Option.map_some, hsame]

/-! ## Programs -/

/-- The places of the variables that a program declares. -/
def Program.declared (p : Program) : Set Path := {q | ∃ b, p.block = some b ∧ q ∈ b.declared}

theorem Program.declared_eq {p : Program} {b : Block} (hp : p.block = some b) :
    p.declared = b.declared := by
  ext q
  simp [declared, hp]

theorem Block.Lexical.places_refs {b : Block} (h : b.Lexical) :
    {q | ∃ d ∈ b.refs, d.place = q} ⊆ b.declared := by
  rintro _ ⟨d, hd, rfl⟩
  obtain ⟨a, ref, href, hd⟩ := Block.mem_refs_iff.1 hd
  obtain ⟨d', a', i, hd', -, -, hdecl, -⟩ := h.resolved href
  cases hd.symm.trans hd'
  exact ⟨a', i, d, hdecl, rfl⟩

/-- A program that was loaded, if its names are identifiers. -/
theorem readable_of_load {bytes : ByteArray} {p : Program} (h : load bytes = .ok p)
    (hnames : ∀ x ∈ p.names, isIdentifier x) : ∃ b, p.block = some b ∧ b.Lexical ∧ b.Readable := by
  obtain ⟨root, -, hp⟩ := Load.load_eq_ok_iff.1 h
  obtain ⟨b, hb, rfl⟩ := Load.program_eq_ok_iff.1 hp
  exact ⟨b, rfl, Load.lexical_of_denotes hb, Block.readable_of_wellFormed hb.wellFormed hnames⟩

/-- Two programs with the same outline differ only in positions and in which declarations their
variables are, one for one; so they have the same listing. -/
theorem outline_unambiguous {bytes bytes' : ByteArray} {p p' : Program}
    (hload : load bytes = .ok p) (hload' : load bytes' = .ok p')
    (hnames : ∀ x ∈ p.names, isIdentifier x) (hnames' : ∀ x ∈ p'.names, isIdentifier x)
    (h : Program.outline (some p) = Program.outline (some p')) :
    (∃ f : Path → Path, Set.BijOn f p.declared p'.declared
      ∧ p.recast (.of id id f) = p'.recast (.of id id id))
      ∧ ∀ t, generate t (some p) = generate t (some p') := by
  obtain ⟨b, hb, hlexical, hreadable⟩ := readable_of_load hload hnames
  obtain ⟨b', hb', hlexical', hreadable'⟩ := readable_of_load hload' hnames'
  have hshape : b.recast .plain = b'.recast .plain := by
    have hblocks : b.outline 1 = b'.outline 1 := by
      simpa [Program.outline, hb, hb'] using h
    have hchars : (b.outline 1).toList ++ [] = (b'.outline 1).toList ++ [] := by rw [hblocks]
    exact (Block.shape_of_outline hreadable hreadable' hchars).1
  obtain ⟨f, hbij, hsame⟩ := hlexical.exists_recast hlexical' hshape
  have hrecast : p.recast (.of id id f) = p'.recast (.of id id id) := by
    rw [Program.recast, Program.recast, hb, hb', Option.map_some, Option.map_some, hsame]
  have hrefs : {q | ∃ d ∈ p.refs, d.place = q} ⊆ b.declared := by
    rw [Program.refs, hb]
    exact hlexical.places_refs
  refine ⟨⟨f, ?_, hrecast⟩, fun t => ?_⟩
  · rwa [Program.declared_eq hb, Program.declared_eq hb']
  · rw [← Lowering.generate_recast t (hbij.injOn.mono hrefs) id id, hrecast,
      Lowering.generate_recast t Function.injective_id.injOn id id]

/-- A program whose inner `a` hides the outer one. -/
def blockStyle : String := "\n".intercalate
  ["declarations:",
    "- name: a",
    "statements:",
    "- block:",
    "    declarations:",
    "    - name: a",
    "    statements:",
    "    - read: [a]"]

/-- The same program in other lines. -/
def flowStyle : String := "\n".intercalate
  ["statements: [\x7bblock: \x7bstatements: [\x7bread: [a]\x7d],",
    "  declarations: [\x7bname: a\x7d]\x7d\x7d]",
    "declarations: [\x7bname: a\x7d]"]

/-- The outline of both. -/
def nestedOutline : String := "\n".intercalate
  ["Program",
    "  Block [2 statements]",
    "    VarDecl a: int",
    "    Block [2 statements]",
    "      VarDecl a: int",
    "      Read a",
    ""]

/-- Whether the names are identifiers, the outline, and where the declarations stand. -/
def Program.summary (p : Program) : Bool × String × List Position :=
  (p.names.all isIdentifier, Program.outline (some p),
    ((p.block.map Block.decls).getD []).map Decl.pos)

theorem exists_of_summary {bytes : ByteArray} {s : Bool × String × List Position}
    (h : (load bytes).toOption.map Program.summary = some s) :
    ∃ p, load bytes = .ok p ∧ p.summary = s := by
  cases hload : load bytes with
  | error e =>
    rw [hload] at h
    cases h
  | ok p =>
    rw [hload] at h
    exact ⟨p, rfl, Option.some.inj h⟩

/-- The two documents have their declarations in different places, and one listing. -/
theorem outline_unambiguous_flowStyle : ∃ p p', load blockStyle.toUTF8 = .ok p
    ∧ load flowStyle.toUTF8 = .ok p' ∧ p.summary.2.2 = [⟨2, 3⟩, ⟨6, 7⟩]
    ∧ p'.summary.2.2 = [⟨3, 16⟩, ⟨2, 18⟩]
    ∧ (∃ f : Path → Path, Set.BijOn f p.declared p'.declared
      ∧ p.recast (.of id id f) = p'.recast (.of id id id))
    ∧ ∀ t, generate t (some p) = generate t (some p') := by
  obtain ⟨p, hload, hsummary⟩ : ∃ p, load blockStyle.toUTF8 = .ok p
      ∧ p.summary = (true, nestedOutline, [⟨2, 3⟩, ⟨6, 7⟩]) :=
    exists_of_summary (by decide +kernel)
  obtain ⟨p', hload', hsummary'⟩ : ∃ p, load flowStyle.toUTF8 = .ok p
      ∧ p.summary = (true, nestedOutline, [⟨3, 16⟩, ⟨2, 18⟩]) :=
    exists_of_summary (by decide +kernel)
  have hnames := congrArg Prod.fst hsummary
  have hnames' := congrArg Prod.fst hsummary'
  have houtline : Program.outline (some p) = nestedOutline := congrArg (·.2.1) hsummary
  have houtline' : Program.outline (some p') = nestedOutline := congrArg (·.2.1) hsummary'
  refine ⟨p, p', hload, hload', congrArg (·.2.2) hsummary, congrArg (·.2.2) hsummary', ?_⟩
  exact outline_unambiguous hload hload' (List.all_eq_true.1 hnames) (List.all_eq_true.1 hnames')
    (houtline.trans houtline'.symm)

end WhileAsm
