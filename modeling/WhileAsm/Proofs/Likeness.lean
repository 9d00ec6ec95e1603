import WhileAsm.Proofs.Grammar

/-!
# Documents that read alike

What may be changed in a document without a change of what it denotes. Of a mapping the rules see
its position, how many entries it has, the texts of its keys and the first value under each of them
(`SameEntries`); of a number or a truth value they see what it means, of a type or an operator the
text, of a list the elements, and of a name everything. A relation between nodes that keeps all
this is a `Likeness`, and what one of two related documents denotes, the other one denotes too
(`denotes_of_likeness`).
-/

namespace WhileAsm.Load

open Document (Node)

/-! ## What the rules see of a node -/

/-- The keys of values that are looked at as texts alone. -/
def textKeys : List String := ["type", "op"]

/-- Entries that say the same: as many of them, under keys of the same texts, and with related first
values. -/
structure SameEntries (R : Node → Node → Prop) (es es' : List (Node × Node)) : Prop where
  length : es'.length = es.length
  keys : ∀ e' ∈ es', ∃ e ∈ es, e.1.text = e'.1.text
  value : ∀ {key v}, FirstValue key es v →
    ∃ v', FirstValue key es' v' ∧ R v v' ∧ (key ∈ textKeys → v'.text = v.text)

/-- A relation that keeps what the rules see of a node. -/
structure Likeness (R : Node → Node → Prop) : Prop where
  scalar : ∀ {pos text form n'}, R (.scalar pos text form) n' → n' = .scalar pos text form
  sequence : ∀ {pos ns n'}, R (.sequence pos ns) n' →
    ∃ pos' ns', n' = .sequence pos' ns' ∧ List.Forall₂ R ns ns'
  mapping : ∀ {pos es n'}, R (.mapping pos es) n' →
    ∃ es', n' = .mapping pos es' ∧ SameEntries R es es'
  meaning : ∀ {n n'}, R n n' → n'.meaning? = n.meaning?

namespace SameEntries

variable {R : Node → Node → Prop} {es es' : List (Node × Node)}

theorem keysIn (h : SameEntries R es es') {allowed : List String} (hkeys : KeysIn allowed es) :
    KeysIn allowed es' := by
  intro e' he'
  obtain ⟨e, he, htext⟩ := h.keys e' he'
  exact htext ▸ hkeys e he

theorem absent (h : SameEntries R es es') {key : String} (habsent : Absent key es) :
    Absent key es' := by
  intro e' he'
  obtain ⟨e, he, htext⟩ := h.keys e' he'
  exact htext ▸ habsent e he

theorem denotesType (h : SameEntries R es es') {type : VarType} (htype : DenotesType es type) :
    DenotesType es' type := by
  rcases htype with ⟨habsent, rfl⟩ | ⟨tn, htn, htype⟩
  · exact Or.inl ⟨h.absent habsent, rfl⟩
  · obtain ⟨tn', htn', -, htext⟩ := h.value htn
    exact Or.inr ⟨tn', htn', (htext (by simp [textKeys])).symm ▸ htype⟩

end SameEntries

/-- Elements that are related one by one denote the same, if each does. -/
theorem forall₂_of_likeness {α : Type} {R : Node → Node → Prop} {D : Node → α → Prop}
    {ns ns' : List Node} {as : List α} (h : List.Forall₂ D ns as) (hns : List.Forall₂ R ns ns')
    (hone : ∀ {n n' a}, D n a → R n n' → D n' a) : List.Forall₂ D ns' as := by
  induction h generalizing ns' with
  | nil =>
    cases hns
    exact .nil
  | cons hd _ ih =>
    cases hns with
    | cons hn hns => exact .cons (hone hd hn) (ih hns)

namespace Likeness

variable {R : Node → Node → Prop}

/-! ## What related nodes denote -/

section Nodes

variable (hR : Likeness R)
include hR

/-- A mapping with one entry is like another one with one entry. -/
theorem one {pos : Position} {key body n' : Node} (h : R (.mapping pos [(key, body)]) n') :
    ∃ key' body', n' = .mapping pos [(key', body')] ∧ key'.text = key.text ∧ R body body' := by
  obtain ⟨es', rfl, hes⟩ := hR.mapping h
  obtain ⟨⟨key', body'⟩, rfl⟩ := List.length_eq_one_iff.1 hes.length
  have htext : key'.text = key.text := by
    obtain ⟨e, he, htext⟩ := hes.keys (key', body') (List.mem_singleton_self _)
    rw [List.mem_singleton.1 he] at htext
    exact htext.symm
  have hfirst : FirstValue key.text [(key, body)] body := ⟨[], key, [], rfl, rfl, by simp⟩
  obtain ⟨v, hv, hbody, -⟩ := hes.value hfirst
  have hv : v = body' := by
    rw [← field_eq_some_iff, field, if_pos htext] at hv
    exact (Option.some.inj hv).symm
  exact ⟨key', body', rfl, htext, hv ▸ hbody⟩

/-- A mapping with one entry, whose value is a mapping, is like another such mapping. -/
theorem inner {pos inner : Position} {key n' : Node} {es : List (Node × Node)}
    (h : R (.mapping pos [(key, .mapping inner es)]) n') :
    ∃ key' es', n' = .mapping pos [(key', .mapping inner es')] ∧ key'.text = key.text
      ∧ SameEntries R es es' := by
  obtain ⟨key', body', rfl, htext, hbody⟩ := hR.one h
  obtain ⟨es', rfl, hes⟩ := hR.mapping hbody
  exact ⟨key', es', rfl, htext, hes⟩

/-- A mapping with one entry, whose value is a list, is like another such mapping. -/
theorem list {pos inner : Position} {key n' : Node} {ns : List Node}
    (h : R (.mapping pos [(key, .sequence inner ns)]) n') :
    ∃ key' inner' ns', n' = .mapping pos [(key', .sequence inner' ns')] ∧ key'.text = key.text
      ∧ List.Forall₂ R ns ns' := by
  obtain ⟨key', body', rfl, htext, hbody⟩ := hR.one h
  obtain ⟨inner', ns', rfl, hns⟩ := hR.sequence hbody
  exact ⟨key', inner', ns', rfl, htext, hns⟩

theorem int64 {n n' : Node} (h : R n n') : n'.int64? = n.int64? := by
  unfold Node.int64?
  rw [hR.meaning h]

theorem bool {n n' : Node} (h : R n n') : n'.bool? = n.bool? := by
  unfold Node.bool?
  rw [hR.meaning h]

theorem listUnder {key : String} {es es' : List (Node × Node)} (hes : SameEntries R es es')
    {ns : List Node} (h : ListUnder key es ns) :
    ∃ ns', ListUnder key es' ns' ∧ List.Forall₂ R ns ns' := by
  rcases h with ⟨habsent, rfl⟩ | ⟨pos, hv⟩
  · exact ⟨[], Or.inl ⟨hes.absent habsent, rfl⟩, .nil⟩
  · obtain ⟨v', hv', hseq, -⟩ := hes.value hv
    obtain ⟨pos', ns', rfl, hns⟩ := hR.sequence hseq
    exact ⟨ns', Or.inr ⟨pos', hv'⟩, hns⟩

theorem denotesRef {scopes : Scopes} {n n' : Node} {ref : VarRef} (h : DenotesRef scopes n ref)
    (hn : R n n') : DenotesRef scopes n' ref := by
  cases h with
  | mk hname hd =>
    rw [hR.scalar hn]
    exact .mk hname hd

theorem denotesExpr {scopes : Scopes} {n n' : Node} {e : Expr} (h : DenotesExpr scopes n e)
    (hn : R n n') : DenotesExpr scopes n' e := by
  induction h generalizing n' with
  | int hkey hv =>
    obtain ⟨key', body', rfl, htext, hbody⟩ := hR.one hn
    exact .int (htext.trans hkey) ((hR.int64 hbody).trans hv)
  | bool hkey hv =>
    obtain ⟨key', body', rfl, htext, hbody⟩ := hR.one hn
    exact .bool (htext.trans hkey) ((hR.bool hbody).trans hv)
  | var hkey href =>
    obtain ⟨key', body', rfl, htext, hbody⟩ := hR.one hn
    exact .var (htext.trans hkey) (hR.denotesRef href hbody)
  | unary hkey hkeys hop hx hsign _ ih =>
    obtain ⟨key', es', rfl, htext, hes⟩ := hR.inner hn
    obtain ⟨on', hop', -, hon⟩ := hes.value hop
    obtain ⟨xn', hx', hxn, -⟩ := hes.value hx
    have hsign' := (hon (by simp [textKeys])).symm ▸ hsign
    exact .unary (htext.trans hkey) (hes.keysIn hkeys) hop' hx' hsign' (ih hxn)
  | binary hkey hkeys hop hl hr hsign _ _ ihl ihr =>
    obtain ⟨key', es', rfl, htext, hes⟩ := hR.inner hn
    obtain ⟨on', hop', -, hon⟩ := hes.value hop
    obtain ⟨ln', hl', hln, -⟩ := hes.value hl
    obtain ⟨rn', hr', hrn, -⟩ := hes.value hr
    have hsign' := (hon (by simp [textKeys])).symm ▸ hsign
    exact .binary (htext.trans hkey) (hes.keysIn hkeys) hop' hl' hr' hsign' (ihl hln) (ihr hrn)

theorem denotesDecl {place : Path} {n n' : Node} {d : Decl} (h : DenotesDecl place n d)
    (hn : R n n') : DenotesDecl place n' d := by
  cases h with
  | mk hkeys hname hempty htype =>
    obtain ⟨es', rfl, hes⟩ := hR.mapping hn
    obtain ⟨nn, hname', hscalar, -⟩ := hes.value hname
    rw [hR.scalar hscalar] at hname'
    exact .mk (hes.keysIn hkeys) hname' hempty (hes.denotesType htype)

theorem denotesDecls {path : Path} {i : ℕ} {ns ns' : List Node} {ds : List Decl}
    (h : DenotesDecls path i ns ds) (hns : List.Forall₂ R ns ns') : DenotesDecls path i ns' ds := by
  induction h generalizing ns' with
  | nil =>
    cases hns
    exact .nil
  | cons hd _ ih =>
    cases hns with
    | cons hn hns => exact .cons (hR.denotesDecl hd hn) (ih hns)

end Nodes

mutual

theorem denotesStmt (hR : Likeness R) {scopes : Scopes} {path : Path} {n n' : Node} {st : Stmt}
    (hn : R n n') : DenotesStmt scopes path n st → DenotesStmt scopes path n' st
  | .assign hkey hkeys htn hsn htarget hsource => by
    obtain ⟨key', es', rfl, htext, hes⟩ := hR.inner hn
    obtain ⟨tn', htn', ht, -⟩ := hes.value htn
    obtain ⟨sn', hsn', hs, -⟩ := hes.value hsn
    exact .assign (htext.trans hkey) (hes.keysIn hkeys) htn' hsn' (hR.denotesRef htarget ht)
      (hR.denotesExpr hsource hs)
  | .read hkey hrefs => by
    obtain ⟨key', inner', ns', rfl, htext, hns⟩ := hR.list hn
    exact .read (htext.trans hkey) (forall₂_of_likeness hrefs hns hR.denotesRef)
  | .write hkey hes => by
    obtain ⟨key', inner', ns', rfl, htext, hns⟩ := hR.list hn
    exact .write (htext.trans hkey) (forall₂_of_likeness hes hns hR.denotesExpr)
  | .loop hkey hkeys hcn hbn hcond hb => by
    obtain ⟨key', es', rfl, htext, hes⟩ := hR.inner hn
    obtain ⟨cn', hcn', hc, -⟩ := hes.value hcn
    obtain ⟨bn', hbn', hb', -⟩ := hes.value hbn
    exact .loop (htext.trans hkey) (hes.keysIn hkeys) hcn' hbn' (hR.denotesExpr hcond hc)
      (denotesBlock hR hb' hb)
  | .block hkey hb => by
    obtain ⟨key', body', rfl, htext, hbody⟩ := hR.one hn
    exact .block (htext.trans hkey) (denotesBlock hR hbody hb)

theorem denotesStmts (hR : Likeness R) {scopes : Scopes} {path : Path} {i : ℕ} {ns ns' : List Node}
    {ss : List Stmt} (hns : List.Forall₂ R ns ns') :
    DenotesStmts scopes path i ns ss → DenotesStmts scopes path i ns' ss
  | .nil => by
    cases hns
    exact .nil
  | .cons hst hss => by
    cases hns with
    | cons hn hns => exact .cons (denotesStmt hR hn hst) (denotesStmts hR hns hss)

theorem denotesBlock (hR : Likeness R) {scopes : Scopes} {path : Path} {n n' : Node} {b : Block}
    (hn : R n n') : DenotesBlock scopes path n b → DenotesBlock scopes path n' b
  | .mk hkeys hdns hds hnodup hsns hss => by
    obtain ⟨es', rfl, hes⟩ := hR.mapping hn
    obtain ⟨dns', hdns', hd⟩ := hR.listUnder hes hdns
    obtain ⟨sns', hsns', hs⟩ := hR.listUnder hes hsns
    have hds' := hR.denotesDecls hds hd
    exact .mk (hes.keysIn hkeys) hdns' hds' hnodup hsns' (denotesStmts hR hs hss)

end

end Likeness

/-- What a document denotes, a document like it denotes too. -/
theorem denotes_of_likeness {R : Node → Node → Prop} (hR : Likeness R) {root root' : Node}
    (hroot : R root root') {p : Program} (h : Denotes root p) : Denotes root' p := by
  obtain ⟨b, hb, rfl⟩ := h
  refine ⟨b, hR.denotesBlock hroot hb, ?_⟩
  cases hb
  obtain ⟨es', rfl, -⟩ := hR.mapping hroot
  rfl

end WhileAsm.Load
