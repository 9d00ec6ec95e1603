import WhileAsm.Proofs.Allocation
import WhileAsm.Proofs.Resolution

/-!
# What loads is of the language

A document denotes a tree without gaps, with known operators and resolved references
(`DenotesBlock.wellFormed`), so a program that was loaded asks for nothing but registers: in serving
its demands no place of the tree is rejected (`Demand.exhausted_of_serve`). Generation then either
writes the listing or runs out of registers, and the peak of the program tells which
(`generate_of_load`).
-/

namespace WhileAsm

open Asm (Target)
open Demand (meet serve)
open Lowering (GenError)

/-! ## Trees of documents -/

/-- A declaration is of the language whatever it declares. -/
theorem Stmt.wellFormedAll_decls (ss : List Stmt) : ∀ ds : List Decl,
    Stmt.wellFormedAll (ds.map .decl ++ ss) = Stmt.wellFormedAll ss
  | [] => rfl
  | d :: ds => by simp [Stmt.wellFormedAll, Stmt.wellFormed, wellFormedAll_decls ss ds]

namespace Load

open Document (Node)

variable {scopes : Scopes} {path : Path} {n : Node}

theorem DenotesRef.resolved {ref : VarRef} (h : DenotesRef scopes n ref) :
    VarRef.resolved (some ref) := by
  obtain ⟨d, hd, -⟩ := h.means
  simp [VarRef.resolved, hd]

theorem known_of_mem_unarySigns {text : String} {op : UnaryOp} (h : (text, op) ∈ unarySigns) :
    op.known := by
  cases op with
  | neg | not => rfl
  | other c => simp [unarySigns] at h

theorem known_of_mem_binarySigns {text : String} {op : BinaryOp} (h : (text, op) ∈ binarySigns) :
    op.known := by
  cases op with
  | add | sub | mul | div => rfl
  | other c => simp [binarySigns] at h

theorem DenotesExpr.wellFormed {e : Expr} (h : DenotesExpr scopes n e) : e.wellFormed := by
  induction h with
  | int | bool => rfl
  | var _ href => exact href.resolved
  | unary _ _ _ _ hop _ ih => simp [Expr.wellFormed, known_of_mem_unarySigns hop, ih]
  | binary _ _ _ _ _ hop _ _ ihl ihr =>
    simp [Expr.wellFormed, known_of_mem_binarySigns hop, ihl, ihr]

mutual

theorem DenotesStmt.wellFormed {scopes : Scopes} {path : Path} {n : Node} {st : Stmt} :
    DenotesStmt scopes path n st → st.wellFormed
  | .assign _ _ _ _ htarget hsource => by
    simp [Stmt.wellFormed, htarget.resolved, hsource.wellFormed]
  | .read _ hrefs => by
    simp only [Stmt.wellFormed, List.all_map, List.all_eq_true, Function.comp_apply]
    intro ref hmem
    obtain ⟨n, href⟩ := exists_of_forall₂ hrefs ref hmem
    exact href.resolved
  | .write _ hes => by
    simp only [Stmt.wellFormed, List.all_eq_true]
    intro e hmem
    obtain ⟨n, he⟩ := exists_of_forall₂ hes e hmem
    exact he.wellFormed
  | .loop _ _ _ _ hcond hb => by
    simp [Stmt.wellFormed, hcond.wellFormed, hb.wellFormed]
  | .block _ hb => by
    simp [Stmt.wellFormed, hb.wellFormed]

theorem DenotesStmts.wellFormed {scopes : Scopes} {path : Path} {i : ℕ} {ns : List Node}
    {ss : List Stmt} : DenotesStmts scopes path i ns ss → Stmt.wellFormedAll ss
  | .nil => by rw [Stmt.wellFormedAll]
  | .cons hst hss => by simp [Stmt.wellFormedAll, hst.wellFormed, hss.wellFormed]

theorem DenotesBlock.wellFormed {scopes : Scopes} {path : Path} {n : Node} {b : Block} :
    DenotesBlock scopes path n b → b.wellFormed
  | .mk _ _ _ _ _ hss => by
    rw [Block.wellFormed, Stmt.wellFormedAll_decls]
    exact hss.wellFormed

end

end Load

theorem wellFormed_of_load {bytes : ByteArray} {p : Program} (h : load bytes = .ok p) :
    p.wellFormed := by
  obtain ⟨root, -, hp⟩ := Load.load_eq_ok_iff.1 h
  obtain ⟨b, hb, rfl⟩ := Load.program_eq_ok_iff.1 hp
  simp [Program.wellFormed, hb.wellFormed]

/-! ## Demands of a tree of the language -/

/-- Demands that some pool can meet are met by any other, or it runs out of registers. A place that
is not of the language would be rejected from every pool. -/
theorem Demand.exhausted_of_serve {n m : ℕ} {ds : List Demand} {k k' : ℕ} {e : GenError}
    (h : serve n ds k = .ok k') (he : serve m ds k = .error e) :
    ∃ leaving, e = .exhausted ⟨m, leaving⟩ := by
  obtain ⟨front, d, back, j, rfl, -, hd⟩ := serve_eq_error_iff.1 he
  obtain ⟨i, -, hback⟩ := serve_append_ok.1 h
  cases d with
  | register leaving =>
    simp only [meet] at hd
    split_ifs at hd
    cases hd
    exact ⟨leaving, rfl⟩
  | release => cases hd
  | reject what =>
    rw [serve_reject] at hback
    cases hback

/-- A program of the language has code unless it needs more registers than there are. -/
theorem Lowering.generate_of_wellFormed {t : Target} (hpool : t.scratch.Nodup)
    (hdiv : t.dividendReg ∈ t.scratch) (hargs : 2 ≤ t.argRegs.length) {p : Program}
    (hp : p.wellFormed) :
    (p.peak ≤ t.scratch.length ∧ ∃ text, generate t (some p) = .ok text)
      ∨ t.scratch.length < p.peak ∧ ∃ leaving,
        generate t (some p) = .error (.exhausted ⟨t.scratch.length, leaving⟩) := by
  have hgen := generate_eq_serve hpool hdiv hargs (some p)
  obtain ⟨k, hk⟩ := (serve_program (n := p.peak) t (some p)).2 ⟨p, rfl, hp, le_rfl⟩
  cases hserve : serve t.scratch.length (Program.demands t (some p)) 0 with
  | ok k' =>
    rw [hserve] at hgen
    obtain ⟨q, hq, -, hpeak⟩ := (serve_program t (some p)).1 ⟨k', hserve⟩
    cases hq
    exact Or.inl ⟨hpeak, hgen⟩
  | error e =>
    rw [hserve] at hgen
    obtain ⟨leaving, rfl⟩ := Demand.exhausted_of_serve hk hserve
    refine Or.inr ⟨?_, leaving, hgen⟩
    by_contra hle
    obtain ⟨k', hk'⟩ := (serve_program t (some p)).2 ⟨p, rfl, hp, Nat.not_lt.1 hle⟩
    rw [hserve] at hk'
    cases hk'

/-- A document that loads is a program of the language: its code is generated, on every system, or
generation runs out of the six registers. The peak of the program tells which. -/
theorem generate_of_load {bytes : ByteArray} {p : Program} (h : load bytes = .ok p) (os : Asm.OS) :
    p.wellFormed
      ∧ ((p.peak ≤ 6 ∧ ∃ text, generate (.x86_64 os) (some p) = .ok text)
        ∨ 6 < p.peak ∧ ∃ leaving,
          generate (.x86_64 os) (some p) = .error (.exhausted ⟨6, leaving⟩)) := by
  have hp := wellFormed_of_load h
  refine ⟨hp, ?_⟩
  exact Lowering.generate_of_wellFormed (t := .x86_64 os) (by simp [Target.x86_64])
    (by simp [Target.x86_64]) (by simp [Target.x86_64]) hp

/-- Writes four quotients. Each takes two registers, and none is given back in between. -/
def fourQuotients : String :=
  let quotient := "\x7bbinary: \x7bop: /, left: \x7bint: 8\x7d, right: \x7bint: 2\x7d\x7d\x7d"
  "statements:\n- write: [" ++ ", ".intercalate (List.replicate 4 quotient) ++ "]"

/-- A document that loads and needs more than six registers. -/
theorem generate_of_load_fourQuotients : ∃ p, load fourQuotients.toUTF8 = .ok p ∧ p.peak = 8
    ∧ p.wellFormed ∧ ∃ leaving,
      generate (.x86_64 .linux) (some p) = .error (.exhausted ⟨6, leaving⟩) := by
  have hload : (load fourQuotients.toUTF8).toOption.map Program.peak = some 8 := by decide +kernel
  cases hp : load fourQuotients.toUTF8 with
  | error e =>
    rw [hp] at hload
    cases hload
  | ok p =>
    rw [hp] at hload
    have hpeak : p.peak = 8 := Option.some.inj hload
    obtain ⟨hwf, ⟨hle, -⟩ | ⟨-, herror⟩⟩ := generate_of_load hp .linux
    · omega
    · exact ⟨p, rfl, hpeak, hwf, herror⟩

end WhileAsm
