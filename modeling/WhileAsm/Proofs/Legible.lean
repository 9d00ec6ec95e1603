import Mathlib.Tactic.Common
import WhileAsm.Proofs.Acceptance
import WhileAsm.Proofs.Recast
import WhileAsm.Tree.Outline

/-!
# Outlines can be read back

Two well-formed trees with the same outline have the same shape, if their names are identifiers
(`Block.shape_of_outline`). Names and numbers are words, and a word ends where a character follows
that no word has (`append_inj_of_word`). So a text that is followed by such a character tells where
it ends: an operation is in parentheses, and of the two that start with the same character, a unary
minus and an operation on a negative number differ in what follows the first word (`Form.neg_ne`).
Statements need no such care, as a block tells how many it has.
-/

namespace WhileAsm

/-! ## Words -/

/-- The characters of names and numbers. -/
def isWordChar (c : Char) : Bool := c.isAlphanum || c == '_'

/-- A letter or an underscore, then letters, digits and underscores; and not a truth value. -/
def isIdentifier (name : String) : Bool :=
  match name.toList with
  | [] => false
  | c :: cs => (c.isAlpha || c == '_') && cs.all isWordChar && name != "true" && name != "false"

structure IsWord (w : List Char) : Prop where
  ne_nil : w ≠ []
  chars : ∀ c ∈ w, isWordChar c

/-- No word goes on here. -/
def WordEnds (r : List Char) : Prop := ∀ c ∈ r.head?, isWordChar c = false

theorem wordEnds_cons {c : Char} {r : List Char} (h : isWordChar c = false) :
    WordEnds (c :: r) := by
  intro c' hc'
  cases hc'
  exact h

theorem wordEnds_blank {r : List Char} : WordEnds (' ' :: r) := wordEnds_cons (by decide)

theorem wordEnds_close {r : List Char} : WordEnds (')' :: r) := wordEnds_cons (by decide)

theorem wordEnds_newline {r : List Char} : WordEnds ('\n' :: r) := wordEnds_cons (by decide)

theorem takeWhile_append_of_wordEnds {w r : List Char} (hw : ∀ c ∈ w, isWordChar c)
    (hr : WordEnds r) : (w ++ r).takeWhile isWordChar = w := by
  rw [List.takeWhile_append_of_pos hw]
  cases r with
  | nil => simp
  | cons c r => simp [hr c rfl]

theorem append_inj_of_word {w w' r r' : List Char} (hw : IsWord w) (hw' : IsWord w')
    (hr : WordEnds r) (hr' : WordEnds r') (h : w ++ r = w' ++ r') : w = w' ∧ r = r' := by
  have hsame : w = w' := by
    rw [← takeWhile_append_of_wordEnds hw.chars hr, h, takeWhile_append_of_wordEnds hw'.chars hr']
  subst hsame
  exact ⟨rfl, List.append_cancel_left h⟩

theorem IsWord.ne_cons {w r r' : List Char} {c : Char} (hw : IsWord w) (hc : isWordChar c = false) :
    w ++ r ≠ c :: r' := by
  intro h
  cases w with
  | nil => exact hw.ne_nil rfl
  | cons c' w =>
    have hc' := hw.chars c' List.mem_cons_self
    rw [(List.cons.inj h).1, hc] at hc'
    cases hc'

theorem exists_of_isIdentifier {name : String} (h : isIdentifier name) : ∃ c cs,
    name.toList = c :: cs ∧ (c.isAlpha ∨ c = '_') ∧ (∀ c ∈ cs, isWordChar c)
      ∧ name ≠ "true" ∧ name ≠ "false" := by
  unfold isIdentifier at h
  split at h
  · cases h
  · rename_i c cs hname
    simp only [Bool.and_eq_true, Bool.or_eq_true, List.all_eq_true, beq_iff_eq, bne_iff_ne] at h
    obtain ⟨⟨⟨hc, hcs⟩, htrue⟩, hfalse⟩ := h
    exact ⟨c, cs, hname, hc, hcs, htrue, hfalse⟩

theorem isWord_of_isIdentifier {name : String} (h : isIdentifier name) : IsWord name.toList := by
  obtain ⟨c, cs, hname, hc, hcs, -⟩ := exists_of_isIdentifier h
  rw [hname]
  refine ⟨by simp, fun c' hc' => ?_⟩
  rcases List.mem_cons.1 hc' with rfl | hc'
  · rcases hc with hc | rfl
    · simp [isWordChar, Char.isAlphanum, hc]
    · rfl
  · exact hcs c' hc'

theorem isWord_toDigits (n : ℕ) : IsWord (Nat.toDigits 10 n) where
  ne_nil := Nat.toDigits_ne_nil
  chars c hc := by
    have hdigit : c.isDigit := Nat.isDigit_of_mem_toDigits (by decide) (by decide) hc
    simp [isWordChar, Char.isAlphanum, hdigit]

/-- Equal texts stand for things of the same shape, and what follows them is the same, wherever no
word goes on. -/
def Legible {α β : Type} (ok : α → Prop) (text : α → String) (shape : α → β) : Prop :=
  ∀ {a a' r r'}, ok a → ok a' → WordEnds r → WordEnds r' →
    (text a).toList ++ r = (text a').toList ++ r' → shape a = shape a' ∧ r = r'

/-! ## Expressions -/

/-- Declarations and references by their names alone. -/
def Guise.plain : Guise where
  decl d := ⟨[], d.name, d.type, default⟩
  ref r := ⟨r.name, none, default⟩

/-- The expression has no gap and no unknown operator, and its names are identifiers. -/
inductive Expr.Readable : Expr → Prop
  | int (pos : Position) (v : Int64) : Readable (.int pos v)
  | bool (pos : Position) (b : Bool) : Readable (.bool pos b)
  | var {ref : VarRef} (h : isIdentifier ref.name) : Readable (.var ref)
  | neg {pos : Position} {x : Expr} (hx : Readable x) : Readable (.unary pos .neg x)
  | not {pos : Position} {x : Expr} (hx : Readable x) : Readable (.unary pos .not x)
  | binary {pos : Position} {op : BinaryOp} {x y : Expr} (hop : op.known) (hx : Readable x)
    (hy : Readable y) : Readable (.binary pos op x y)

/-- How the text of an expression starts. -/
inductive Form (t : List Char) : Prop
  | word (h : IsWord t)
  | negative (w : List Char) (h : IsWord w) (ht : t = '-' :: w)
  | group (r : List Char) (ht : t = '(' :: r)

section Form

variable {l x r r' : List Char} {c : Char}

/-- A unary minus is not an operation on a negative number. -/
theorem Form.neg_ne (hx : Form x) (hl : Form l) : '-' :: (x ++ ')' :: r) ≠ l ++ ' ' :: r' := by
  intro h
  rcases hl with hl | ⟨w, hw, rfl⟩ | ⟨l, rfl⟩
  · exact hl.ne_cons (by decide) h.symm
  · have h' : x ++ ')' :: r = w ++ ' ' :: r' := (List.cons.inj h).2
    rcases hx with hx | ⟨x, -, rfl⟩ | ⟨x, rfl⟩
    · cases (append_inj_of_word hx hw wordEnds_close wordEnds_blank h').2
    · exact hw.ne_cons (by decide) h'.symm
    · exact hw.ne_cons (by decide) h'.symm
  · cases h

/-- A negation is not an operation on a variable of that name. -/
theorem Form.not_ne (hx : Form x) (hl : Form l) (hc : isWordChar c = false) (hgroup : c ≠ '(') :
    ['n', 'o', 't', ' '] ++ (x ++ ')' :: r) ≠ l ++ ' ' :: c :: ' ' :: r' := by
  intro h
  rcases hl with hl | ⟨w, hw, rfl⟩ | ⟨l, rfl⟩
  · have hnot : IsWord ['n', 'o', 't'] := ⟨by simp, by simp; decide⟩
    have h' : x ++ ')' :: r = c :: ' ' :: r' := by
      have hrest := (append_inj_of_word hnot hl wordEnds_blank wordEnds_blank h).2
      exact (List.cons.inj hrest).2
    rcases hx with hx | ⟨w, hw, rfl⟩ | ⟨x, rfl⟩
    · exact hx.ne_cons hc h'
    · exact hw.ne_cons (by decide) (List.cons.inj h').2
    · exact hgroup (List.cons.inj h').1.symm
  · cases h
  · cases h

end Form

theorem toList_toString_int (v : ℤ) : (toString v).toList
    = if v < 0 then '-' :: Nat.toDigits 10 v.natAbs else Nat.toDigits 10 v.natAbs := by
  cases v <;> simp [Int.toString_eq_repr, Int.repr]

theorem toString_int_injective {v v' : ℤ} (h : toString v = toString v') : v = v' := by
  have hdigits : ∀ {n n' : ℕ}, Nat.toDigits 10 n = Nat.toDigits 10 n' → n = n' := by
    intro n n' hn
    exact Lowering.toString_injective (String.toList_inj.1 (by simpa using hn))
  have hsign : ∀ {n n' : ℕ}, Nat.toDigits 10 n ≠ '-' :: Nat.toDigits 10 n' := by
    intro n n' hn
    exact (isWord_toDigits n).ne_cons (by decide) ((List.append_nil _).trans hn)
  have hchars := congrArg String.toList h
  rw [toList_toString_int, toList_toString_int] at hchars
  split_ifs at hchars with hv hv' hv'
  · have := hdigits (List.cons.inj hchars).2
    omega
  · exact absurd hchars.symm hsign
  · exact absurd hchars hsign
  · have := hdigits hchars
    omega

theorem toString_int_ne {v : ℤ} {name : String} {c : Char} {cs : List Char}
    (hname : name.toList = c :: cs) (hc : c.isAlpha ∨ c = '_') : toString v ≠ name := by
  rintro rfl
  rw [toList_toString_int] at hname
  split_ifs at hname
  · cases hname
    simp at hc
  · have hdigit : c.isDigit := by
      refine Nat.isDigit_of_mem_toDigits (b := 10) (n := v.natAbs) (by decide) (by decide) ?_
      rw [hname]
      exact List.mem_cons_self
    rcases hc with hc | rfl
    · simp only [Char.isDigit, UInt32.le_iff_toNat_le, Bool.and_eq_true, decide_eq_true_eq,
        ge_iff_le] at hdigit
      change 48 ≤ c.val.toNat ∧ c.val.toNat ≤ 57 at hdigit
      rcases Bool.or_eq_true_iff.1 hc with hc | hc
      · have hupper : 65 ≤ c.val.toNat ∧ c.val.toNat ≤ 90 := of_decide_eq_true hc
        omega
      · have hlower : 97 ≤ c.val.toNat := of_decide_eq_true (Bool.and_eq_true_iff.1 hc).1
        omega
    · cases hdigit

namespace Expr

variable {e e' : Expr} {r r' : List Char}

theorem readable_of_wellFormed : ∀ {e : Expr}, e.wellFormed →
    (∀ ref ∈ e.mentions, isIdentifier ref.name) → e.Readable
  | .int pos v, _, _ => .int pos v
  | .bool pos b, _, _ => .bool pos b
  | .var ref, _, hnames => .var (hnames ref (by simp [mentions]))
  | .unary _ op x, hwf, hnames => by
    simp only [wellFormed, Bool.and_eq_true] at hwf
    have hx := readable_of_wellFormed hwf.2 hnames
    cases op with
    | neg => exact .neg hx
    | not => exact .not hx
    | other n => cases hwf.1
  | .binary _ _ x y, hwf, hnames => by
    simp only [wellFormed, Bool.and_eq_true] at hwf
    exact .binary hwf.1.1
      (readable_of_wellFormed hwf.1.2 fun ref href => hnames ref (List.mem_append_left _ href))
      (readable_of_wellFormed hwf.2 fun ref href => hnames ref (List.mem_append_right _ href))

theorem form_of_isAtom (he : e.Readable) (hatom : e.isAtom) :
    IsWord e.text.toList ∨ ∃ w, IsWord w ∧ e.text.toList = '-' :: w := by
  cases he with
  | int _ v =>
    rw [text, toList_toString_int]
    split_ifs
    · exact Or.inr ⟨_, isWord_toDigits _, rfl⟩
    · exact Or.inl (isWord_toDigits _)
  | bool _ b =>
    refine Or.inl ?_
    cases b
    · exact ⟨by simp [text], by simp [text]; decide⟩
    · exact ⟨by simp [text], by simp [text]; decide⟩
  | var h => exact Or.inl (isWord_of_isIdentifier h)
  | neg | not | binary => cases hatom

theorem group_of_not_isAtom (he : e.Readable) (hatom : ¬ e.isAtom) :
    ∃ t, e.text.toList = '(' :: t := by
  cases he with
  | int | bool | var => exact absurd rfl hatom
  | neg | not | binary => simp [text]

theorem form (he : e.Readable) : Form e.text.toList := by
  by_cases hatom : e.isAtom
  · rcases form_of_isAtom he hatom with hw | ⟨w, hw, htext⟩
    · exact .word hw
    · exact .negative w hw htext
  · obtain ⟨t, ht⟩ := group_of_not_isAtom he hatom
    exact .group t ht

/-- The text of a literal or a variable tells which it is. -/
theorem recast_of_text (he : e.Readable) (he' : e'.Readable) (hatom : e.isAtom) (hatom' : e'.isAtom)
    (h : e.text = e'.text) : e.recast .plain = e'.recast .plain := by
  have hbool : ∀ {v : ℤ} {pos b}, toString v ≠ (bool pos b).text := by
    intro v pos b
    cases b
    · have hfalse : "false".toList = 'f' :: ['a', 'l', 's', 'e'] := by simp
      exact toString_int_ne hfalse (Or.inl (by decide))
    · have htrue : "true".toList = 't' :: ['r', 'u', 'e'] := by simp
      exact toString_int_ne htrue (Or.inl (by decide))
  have hvar : ∀ {v : ℤ} {name : String}, isIdentifier name → toString v ≠ name := by
    intro v name hname
    obtain ⟨c, cs, hchars, hc, -⟩ := exists_of_isIdentifier hname
    exact toString_int_ne hchars hc
  have htruth : ∀ {name : String} {pos b}, isIdentifier name → (bool pos b).text ≠ name := by
    intro name pos b hname
    obtain ⟨-, -, -, -, -, htrue, hfalse⟩ := exists_of_isIdentifier hname
    cases b
    · exact hfalse.symm
    · exact htrue.symm
  cases he with
  | int _ v =>
    cases he' with
    | int _ v' => simp [recast, Int64.toInt_inj.1 (toString_int_injective h)]
    | bool _ b => exact absurd h hbool
    | var hname => exact absurd h (hvar hname)
    | neg | not | binary => cases hatom'
  | bool _ b =>
    cases he' with
    | int _ v => exact absurd h.symm hbool
    | bool _ b' => cases b <;> cases b' <;> simp_all [text, recast]
    | var hname => exact absurd h (htruth hname)
    | neg | not | binary => cases hatom'
  | var hname =>
    cases he' with
    | int _ v => exact absurd h.symm (hvar hname)
    | bool _ b => exact absurd h.symm (htruth hname)
    | var hname' => simpa [recast, Guise.plain, text] using h
    | neg | not | binary => cases hatom'
  | neg | not | binary => cases hatom

theorem legible_of_isAtom (he : e.Readable) (he' : e'.Readable) (hatom : e.isAtom) (hr : WordEnds r)
    (hr' : WordEnds r') (h : e.text.toList ++ r = e'.text.toList ++ r') :
    e.recast .plain = e'.recast .plain ∧ r = r' := by
  by_cases hatom' : e'.isAtom
  · have hsame : e.text.toList = e'.text.toList ∧ r = r' := by
      rcases form_of_isAtom he hatom with hw | ⟨w, hw, hneg⟩ <;>
        rcases form_of_isAtom he' hatom' with hw' | ⟨w', hw', hneg'⟩
      · exact append_inj_of_word hw hw' hr hr' h
      · rw [hneg'] at h
        exact absurd h (hw.ne_cons (by decide))
      · rw [hneg] at h
        exact absurd h.symm (hw'.ne_cons (by decide))
      · rw [hneg, hneg'] at h ⊢
        obtain ⟨rfl, hrest⟩ := append_inj_of_word hw hw' hr hr' (List.cons.inj h).2
        exact ⟨rfl, hrest⟩
    exact ⟨recast_of_text he he' hatom hatom' (String.toList_inj.1 hsame.1), hsame.2⟩
  · obtain ⟨t, ht⟩ := group_of_not_isAtom he' hatom'
    rw [ht] at h
    rcases form_of_isAtom he hatom with hw | ⟨w, hw, hneg⟩
    · exact absurd h (hw.ne_cons (by decide))
    · rw [hneg] at h
      cases h

theorem legible_of_isAtom_right (he : e.Readable) (he' : e'.Readable) (hatom' : e'.isAtom)
    (hr : WordEnds r) (hr' : WordEnds r') (h : e.text.toList ++ r = e'.text.toList ++ r') :
    e.recast .plain = e'.recast .plain ∧ r = r' :=
  (legible_of_isAtom he' he hatom' hr' hr h.symm).imp Eq.symm Eq.symm

section Operations

variable {pos pos' : Position} {op : BinaryOp} {x y z : Expr} {c : Char}

theorem toList_neg :
    (unary pos .neg x).text.toList ++ r = '(' :: '-' :: (x.text.toList ++ ')' :: r) := by
  simp [text, UnaryOp.text]

theorem toList_not : (unary pos .not x).text.toList ++ r
    = '(' :: (['n', 'o', 't', ' '] ++ (x.text.toList ++ ')' :: r)) := by
  simp [text]

theorem toList_binary (hc : op.text.toList = [c]) : (binary pos op x y).text.toList ++ r
    = '(' :: (x.text.toList ++ ' ' :: c :: ' ' :: (y.text.toList ++ ')' :: r)) := by
  simp [text, hc]

/-- The sign of a binary operation is one character that tells the operation. -/
theorem exists_sign (h : op.known) : ∃ c, op.text.toList = [c] ∧ isWordChar c = false ∧ c ≠ '('
    ∧ ∀ op' : BinaryOp, op'.known → op'.text.toList = [c] → op = op' := by
  cases op with
  | other n => cases h
  | _ =>
    refine ⟨_, by simp [BinaryOp.text]; rfl, by decide, by decide, fun op' h' ht => ?_⟩
    cases op' <;> simp_all [BinaryOp.text, BinaryOp.known]

theorem neg_ne_not :
    (unary pos .neg x).text.toList ++ r ≠ (unary pos' .not y).text.toList ++ r' := by
  rw [toList_neg, toList_not]
  intro h
  cases h

theorem neg_ne_binary (hop : op.known) (hx : x.Readable) (hy : y.Readable) :
    (unary pos .neg x).text.toList ++ r ≠ (binary pos' op y z).text.toList ++ r' := by
  obtain ⟨c, hc, -⟩ := exists_sign hop
  rw [toList_neg, toList_binary hc]
  intro h
  exact (form hx).neg_ne (form hy) (List.cons.inj h).2

theorem not_ne_binary (hop : op.known) (hx : x.Readable) (hy : y.Readable) :
    (unary pos .not x).text.toList ++ r ≠ (binary pos' op y z).text.toList ++ r' := by
  obtain ⟨c, hc, hword, hgroup, -⟩ := exists_sign hop
  rw [toList_not, toList_binary hc]
  intro h
  exact (form hx).not_ne (form hy) hword hgroup (List.cons.inj h).2

end Operations

/-- Of two expressions with the same text, each operation of one is that of the other: after an
operand there is a blank or a parenthesis, so that the operands can be told apart in their turn. -/
theorem legible : Legible Readable text (recast .plain) := by
  intro e e' r r' he he' hr hr' h
  induction he generalizing e' r r' with
  | int pos v => exact legible_of_isAtom (.int pos v) he' rfl hr hr' h
  | bool pos b => exact legible_of_isAtom (.bool pos b) he' rfl hr hr' h
  | var hname => exact legible_of_isAtom (.var hname) he' rfl hr hr' h
  | neg hx ih =>
    by_cases hatom' : e'.isAtom
    · exact legible_of_isAtom_right (.neg hx) he' hatom' hr hr' h
    cases he' with
    | int | bool | var => exact absurd rfl hatom'
    | neg hx' =>
      rw [toList_neg, toList_neg] at h
      obtain ⟨hsame, hrest⟩ :=
        ih hx' wordEnds_close wordEnds_close (List.cons.inj (List.cons.inj h).2).2
      exact ⟨by simp [recast, hsame], (List.cons.inj hrest).2⟩
    | not => exact absurd h neg_ne_not
    | binary hop' hx' => exact absurd h (neg_ne_binary hop' hx hx')
  | not hx ih =>
    by_cases hatom' : e'.isAtom
    · exact legible_of_isAtom_right (.not hx) he' hatom' hr hr' h
    cases he' with
    | int | bool | var => exact absurd rfl hatom'
    | neg => exact absurd h.symm neg_ne_not
    | not hx' =>
      rw [toList_not, toList_not] at h
      obtain ⟨hsame, hrest⟩ :=
        ih hx' wordEnds_close wordEnds_close (List.append_cancel_left (List.cons.inj h).2)
      exact ⟨by simp [recast, hsame], (List.cons.inj hrest).2⟩
    | binary hop' hx' => exact absurd h (not_ne_binary hop' hx hx')
  | binary hop hx hy ihx ihy =>
    by_cases hatom' : e'.isAtom
    · exact legible_of_isAtom_right (.binary hop hx hy) he' hatom' hr hr' h
    cases he' with
    | int | bool | var => exact absurd rfl hatom'
    | neg hx' => exact absurd h.symm (neg_ne_binary hop hx' hx)
    | not hx' => exact absurd h.symm (not_ne_binary hop hx' hx)
    | binary hop' hx' hy' =>
      obtain ⟨c, hc, -, -, hsign⟩ := exists_sign hop
      obtain ⟨c', hc', -⟩ := exists_sign hop'
      rw [toList_binary hc, toList_binary hc'] at h
      obtain ⟨hleft, hmid⟩ := ihx hx' wordEnds_blank wordEnds_blank (List.cons.inj h).2
      simp only [List.cons.injEq, true_and] at hmid
      obtain ⟨rfl, hmid⟩ := hmid
      obtain rfl := hsign _ hop' hc'
      obtain ⟨hright, hrest⟩ := ihy hy' wordEnds_close wordEnds_close hmid
      exact ⟨by simp [recast, hleft, hright], (List.cons.inj hrest).2⟩

theorem ne_newline (he : e.Readable) : e.text.toList ++ r ≠ '\n' :: r' := by
  rcases form he with hw | ⟨w, hw, ht⟩ | ⟨t, ht⟩
  · exact hw.ne_cons (by decide)
  · simp [ht]
  · simp [ht]

end Expr

/-! ## Lists on one line -/

section Lists

variable {α β : Type} {ok : α → Prop} {text : α → String} {shape : α → β} {r r' : List Char}

theorem toList_intercalate_cons (a : α) (as : List α) :
    (", ".intercalate ((a :: as).map text)).toList
      = (text a).toList ++ as.flatMap fun b => [',', ' '] ++ (text b).toList := by
  induction as generalizing a with
  | nil => simp
  | cons b as ih =>
    rw [List.map_cons, List.map_cons, String.intercalate_cons_cons, ← List.map_cons,
      String.toList_append, ih]
    simp

theorem wordEnds_flatMap (as : List α) :
    WordEnds ((as.flatMap fun b => [',', ' '] ++ (text b).toList) ++ '\n' :: r) := by
  cases as with
  | nil => exact wordEnds_newline
  | cons a as => exact wordEnds_cons (by decide)

theorem Legible.flatMap (h : Legible ok text shape) : ∀ {as as' : List α} {r r' : List Char},
    (∀ a ∈ as, ok a) → (∀ a ∈ as', ok a) →
    (as.flatMap fun b => [',', ' '] ++ (text b).toList) ++ '\n' :: r
      = (as'.flatMap fun b => [',', ' '] ++ (text b).toList) ++ '\n' :: r' →
    as.map shape = as'.map shape ∧ r = r'
  | [], [], _, _, _, _, heq => ⟨rfl, (List.cons.inj heq).2⟩
  | [], _ :: _, _, _, _, _, heq => by simp at heq
  | _ :: _, [], _, _, _, _, heq => by simp at heq
  | a :: as, a' :: as', r, r', has, has', heq => by
    simp only [List.flatMap_cons, List.append_assoc, List.append_cancel_left_eq] at heq
    obtain ⟨hsame, hrest⟩ := h (has a List.mem_cons_self) (has' a' List.mem_cons_self)
      (wordEnds_flatMap as) (wordEnds_flatMap as') heq
    obtain ⟨hshapes, hr⟩ := h.flatMap (fun b hb => has b (List.mem_cons_of_mem _ hb))
      (fun b hb => has' b (List.mem_cons_of_mem _ hb)) hrest
    exact ⟨by rw [List.map_cons, List.map_cons, hsame, hshapes], hr⟩

theorem Legible.intercalate (h : Legible ok text shape)
    (hstart : ∀ {a r r'}, ok a → (text a).toList ++ r ≠ '\n' :: r') {as as' : List α}
    (has : ∀ a ∈ as, ok a) (has' : ∀ a ∈ as', ok a)
    (heq : (", ".intercalate (as.map text)).toList ++ '\n' :: r
      = (", ".intercalate (as'.map text)).toList ++ '\n' :: r') :
    as.map shape = as'.map shape ∧ r = r' := by
  cases as with
  | nil =>
    cases as' with
    | nil => exact ⟨rfl, by simpa using heq⟩
    | cons a' as' =>
      rw [toList_intercalate_cons, List.append_assoc] at heq
      exact absurd heq.symm (hstart (has' a' List.mem_cons_self))
  | cons a as =>
    cases as' with
    | nil =>
      rw [toList_intercalate_cons, List.append_assoc] at heq
      exact absurd heq (hstart (has a List.mem_cons_self))
    | cons a' as' =>
      refine h.flatMap has has' ?_
      rw [toList_intercalate_cons, toList_intercalate_cons] at heq
      simp only [List.flatMap_cons, List.append_assoc] at heq ⊢
      rw [heq]

end Lists

/-! ## Statements -/

mutual

/-- The names in a tree, of declarations and of references. -/
def Stmt.names : Stmt → List String
  | .block b => b.names
  | .decl d => [d.name]
  | .loop _ cond (some b) => cond.mentions.map VarRef.name ++ b.names
  | st => st.mentions.map VarRef.name

def Block.names : Block → List String
  | .mk _ ss => Stmt.namesOf ss

def Stmt.namesOf : List Stmt → List String
  | [] => []
  | st :: ss => st.names ++ Stmt.namesOf ss

end

def Program.names (p : Program) : List String := (p.block.map Block.names).getD []

/-- The reference is there, under an identifier. -/
def VarRef.Readable (ref : Option VarRef) : Prop := ∃ r, ref = some r ∧ isIdentifier r.name

mutual

inductive Stmt.Readable : Stmt → Prop
  | block {b : Block} (hb : b.Readable) : Stmt.Readable (.block b)
  | decl {d : Decl} (h : isIdentifier d.name) : Stmt.Readable (.decl d)
  | assign {pos : Position} {ref : Option VarRef} {e : Expr} (href : VarRef.Readable ref)
    (he : e.Readable) : Stmt.Readable (.assign pos ref e)
  | read {pos : Position} {refs : List (Option VarRef)} (h : ∀ ref ∈ refs, VarRef.Readable ref) :
    Stmt.Readable (.read pos refs)
  | write {pos : Position} {es : List Expr} (h : ∀ e ∈ es, e.Readable) :
    Stmt.Readable (.write pos es)
  | loop {pos : Position} {cond : Expr} {b : Block} (hcond : cond.Readable) (hb : b.Readable) :
    Stmt.Readable (.loop pos cond (some b))

/-- The tree is well-formed and its names are identifiers. -/
inductive Block.Readable : Block → Prop
  | mk {pos : Position} {ss : List Stmt} (h : ∀ st ∈ ss, st.Readable) : Block.Readable (.mk pos ss)

end

theorem VarRef.readable_of_resolved {ref : Option VarRef} (hwf : VarRef.resolved ref)
    (hname : ∀ r, ref = some r → isIdentifier r.name) : VarRef.Readable ref := by
  cases ref with
  | none => cases hwf
  | some r => exact ⟨r, rfl, hname r rfl⟩

mutual

theorem Stmt.readable_of_wellFormed : ∀ {st : Stmt}, st.wellFormed →
    (∀ x ∈ st.names, isIdentifier x) → st.Readable
  | .block b, hwf, hnames => by
    rw [Stmt.wellFormed] at hwf
    rw [Stmt.names] at hnames
    exact .block (Block.readable_of_wellFormed hwf hnames)
  | .decl d, _, hnames => .decl (hnames d.name (by simp [Stmt.names]))
  | .assign _ ref e, hwf, hnames => by
    simp only [Stmt.wellFormed, Bool.and_eq_true] at hwf
    simp only [Stmt.names, Stmt.mentions, List.forall_mem_map, List.forall_mem_append] at hnames
    exact .assign (VarRef.readable_of_resolved hwf.1 fun r hr => hnames.1 r (by simp [hr]))
      (Expr.readable_of_wellFormed hwf.2 hnames.2)
  | .read _ refs, hwf, hnames => by
    simp only [Stmt.wellFormed, List.all_eq_true] at hwf
    simp only [Stmt.names, Stmt.mentions, List.forall_mem_map] at hnames
    exact .read fun ref href => VarRef.readable_of_resolved (hwf ref href) fun r hr =>
      hnames r (List.mem_filterMap.2 ⟨ref, href, hr⟩)
  | .write _ es, hwf, hnames => by
    simp only [Stmt.wellFormed, List.all_eq_true] at hwf
    simp only [Stmt.names, Stmt.mentions, List.forall_mem_map] at hnames
    exact .write fun e he => Expr.readable_of_wellFormed (hwf e he) fun ref href =>
      hnames ref (List.mem_flatMap.2 ⟨e, he, href⟩)
  | .loop _ cond (some b), hwf, hnames => by
    simp only [Stmt.wellFormed, Bool.and_eq_true] at hwf
    simp only [Stmt.names, List.forall_mem_map, List.forall_mem_append] at hnames
    exact .loop (Expr.readable_of_wellFormed hwf.1 hnames.1)
      (Block.readable_of_wellFormed hwf.2 hnames.2)
  | .loop _ _ none, hwf, _ => by simp [Stmt.wellFormed] at hwf
  | .gap _, hwf, _ => by simp [Stmt.wellFormed] at hwf

theorem Block.readable_of_wellFormed : ∀ {b : Block}, b.wellFormed →
    (∀ x ∈ b.names, isIdentifier x) → b.Readable
  | .mk _ ss, hwf, hnames => by
    rw [Block.wellFormed] at hwf
    rw [Block.names] at hnames
    exact .mk (Stmt.readable_of_wellFormedAll hwf hnames)

theorem Stmt.readable_of_wellFormedAll : ∀ {ss : List Stmt}, Stmt.wellFormedAll ss →
    (∀ x ∈ Stmt.namesOf ss, isIdentifier x) → ∀ st ∈ ss, st.Readable
  | [], _, _ => by simp
  | st :: ss, hwf, hnames => by
    simp only [Stmt.wellFormedAll, Bool.and_eq_true] at hwf
    simp only [Stmt.namesOf, List.forall_mem_append] at hnames
    have hst := Stmt.readable_of_wellFormed hwf.1 hnames.1
    have hss := Stmt.readable_of_wellFormedAll hwf.2 hnames.2
    exact List.forall_mem_cons.2 ⟨hst, hss⟩

end

/-! ## Outlines -/

theorem VarRef.legible : Legible VarRef.Readable VarRef.textOf (Option.map Guise.plain.ref) := by
  rintro _ _ r r' ⟨ref, rfl, href⟩ ⟨ref', rfl, href'⟩ hr hr' h
  obtain ⟨hname, hrest⟩ := append_inj_of_word (isWord_of_isIdentifier href)
    (isWord_of_isIdentifier href') hr hr' h
  exact ⟨by simp [Guise.plain, String.toList_inj.1 hname], hrest⟩

theorem VarRef.ne_newline {ref : Option VarRef} (h : VarRef.Readable ref) {r r' : List Char} :
    (VarRef.textOf ref).toList ++ r ≠ '\n' :: r' := by
  obtain ⟨ref, rfl, href⟩ := h
  exact (isWord_of_isIdentifier href).ne_cons (by decide)

theorem VarType.isWord_text (type : VarType) : IsWord type.text.toList := by
  cases type <;> exact ⟨by simp [text], by simp [text]; decide⟩

theorem VarType.text_injective {type type' : VarType} (h : type.text = type'.text) :
    type = type' := by
  cases type <;> cases type' <;> simp_all [text]

theorem toList_outlineLine (level : ℕ) (text : String) (r : List Char) :
    (outlineLine level text).toList ++ r
      = List.replicate (2 * level) ' ' ++ (text.toList ++ '\n' :: r) := by
  simp [outlineLine]

section Lines

variable {level : ℕ} {pos : Position} {r : List Char}

theorem toList_decl (d : Decl) : (Stmt.outline level (.decl d)).toList ++ r
    = List.replicate (2 * level) ' ' ++ ("VarDecl ".toList
      ++ (d.name.toList ++ ':' :: ' ' :: (d.type.text.toList ++ '\n' :: r))) := by
  rw [Stmt.outline, toList_outlineLine]
  simp

theorem toList_assign (ref : Option VarRef) (e : Expr) :
    (Stmt.outline level (.assign pos ref e)).toList ++ r
      = List.replicate (2 * level) ' ' ++ ("Assign ".toList ++ ((VarRef.textOf ref).toList
        ++ ' ' :: ([':', '=', ' '] ++ (e.text.toList ++ '\n' :: r)))) := by
  rw [Stmt.outline, toList_outlineLine]
  simp

theorem toList_read (refs : List (Option VarRef)) :
    (Stmt.outline level (.read pos refs)).toList ++ r
      = List.replicate (2 * level) ' ' ++ ("Read ".toList
        ++ ((", ".intercalate (refs.map VarRef.textOf)).toList ++ '\n' :: r)) := by
  rw [Stmt.outline, toList_outlineLine]
  simp

theorem toList_write (es : List Expr) :
    (Stmt.outline level (.write pos es)).toList ++ r
      = List.replicate (2 * level) ' ' ++ ("Write ".toList
        ++ ((", ".intercalate (es.map Expr.text)).toList ++ '\n' :: r)) := by
  rw [Stmt.outline, toList_outlineLine]
  simp

theorem toList_loop (cond : Expr) (b : Block) :
    (Stmt.outline level (.loop pos cond (some b))).toList ++ r
      = List.replicate (2 * level) ' ' ++ ("While (".toList
        ++ (cond.text.toList ++ ')' :: '\n' :: ((b.outline (level + 1)).toList ++ r))) := by
  rw [Stmt.outline, String.toList_append, List.append_assoc, toList_outlineLine]
  simp

theorem toList_block (ss : List Stmt) : (Block.outline level (.mk pos ss)).toList ++ r
    = List.replicate (2 * level) ' ' ++ ("Block [".toList ++ ((toString ss.length).toList
      ++ ' ' :: ("statements]\n".toList ++ ((Stmt.outlineAll (level + 1) ss).toList ++ r)))) := by
  rw [Block.outline, String.toList_append, List.append_assoc, toList_outlineLine]
  simp

end Lines

/-- The first letters of the line of a statement. -/
def Stmt.initials : Stmt → List Char
  | .block _ => ['B', 'l']
  | .decl _ => ['V', 'a']
  | .assign .. => ['A', 's']
  | .read .. => ['R', 'e']
  | .write .. => ['W', 'r']
  | .loop .. => ['W', 'h']
  | .gap _ => ['<']

theorem Stmt.Readable.initials {st : Stmt} (h : st.Readable) (level : ℕ) (r : List Char) :
    ∃ t, (st.outline level).toList ++ r
      = List.replicate (2 * level) ' ' ++ (st.initials ++ t) := by
  cases h with
  | @block b hb =>
    obtain ⟨pos, ss⟩ := b
    rw [Stmt.outline, toList_block]
    exact ⟨_, by simp [Stmt.initials]; rfl⟩
  | decl =>
    rw [toList_decl]
    exact ⟨_, by simp [Stmt.initials]; rfl⟩
  | assign =>
    rw [toList_assign]
    exact ⟨_, by simp [Stmt.initials]; rfl⟩
  | read =>
    rw [toList_read]
    exact ⟨_, by simp [Stmt.initials]; rfl⟩
  | write =>
    rw [toList_write]
    exact ⟨_, by simp [Stmt.initials]; rfl⟩
  | loop =>
    rw [toList_loop]
    exact ⟨_, by simp [Stmt.initials]; rfl⟩

theorem Stmt.initials_of_outline {st st' : Stmt} {level : ℕ} {r r' : List Char} (hst : st.Readable)
    (hst' : st'.Readable) (h : (st.outline level).toList ++ r = (st'.outline level).toList ++ r') :
    st.initials = st'.initials := by
  obtain ⟨t, ht⟩ := hst.initials level r
  obtain ⟨t', ht'⟩ := hst'.initials level r'
  rw [ht, ht'] at h
  have htext := List.append_cancel_left h
  cases hst <;> cases hst' <;> simp_all [Stmt.initials]

mutual

theorem Stmt.shape_of_outline : ∀ {st st' : Stmt} {level : ℕ} {r r' : List Char}, st.Readable →
    st'.Readable → (st.outline level).toList ++ r = (st'.outline level).toList ++ r' →
      st.recast .plain = st'.recast .plain ∧ r = r'
  | .block b, st', level, r, r', hst, hst', h => by
    have hkind := Stmt.initials_of_outline hst hst' h
    cases hst with
    | block hb =>
      cases hst' with
      | block hb' =>
        rw [Stmt.outline, Stmt.outline] at h
        obtain ⟨hsame, hrest⟩ := Block.shape_of_outline hb hb' h
        exact ⟨by rw [Stmt.recast, Stmt.recast, hsame], hrest⟩
      | _ => simp [Stmt.initials] at hkind
  | .decl d, st', level, r, r', hst, hst', h => by
    have hkind := Stmt.initials_of_outline hst hst' h
    cases hst with
    | decl hd =>
      cases hst' with
      | decl hd' =>
        rw [toList_decl, toList_decl, List.append_cancel_left_eq, List.append_cancel_left_eq] at h
        obtain ⟨hname, h⟩ := append_inj_of_word (isWord_of_isIdentifier hd)
          (isWord_of_isIdentifier hd') (wordEnds_cons (by decide)) (wordEnds_cons (by decide)) h
        obtain ⟨htype, h⟩ := append_inj_of_word (VarType.isWord_text _) (VarType.isWord_text _)
          wordEnds_newline wordEnds_newline (List.cons.inj (List.cons.inj h).2).2
        refine ⟨?_, (List.cons.inj h).2⟩
        simp [Stmt.recast, Guise.plain, String.toList_inj.1 hname,
          VarType.text_injective (String.toList_inj.1 htype)]
      | _ => simp [Stmt.initials] at hkind
  | .assign _ target source, st', level, r, r', hst, hst', h => by
    have hkind := Stmt.initials_of_outline hst hst' h
    cases hst with
    | assign href he =>
      cases hst' with
      | assign href' he' =>
        rw [toList_assign, toList_assign, List.append_cancel_left_eq,
          List.append_cancel_left_eq] at h
        obtain ⟨htarget, h⟩ := VarRef.legible href href' wordEnds_blank wordEnds_blank h
        obtain ⟨hsource, h⟩ := Expr.legible he he' wordEnds_newline wordEnds_newline
          (List.append_cancel_left (List.cons.inj h).2)
        exact ⟨by rw [Stmt.recast, Stmt.recast, htarget, hsource], (List.cons.inj h).2⟩
      | _ => simp [Stmt.initials] at hkind
  | .read _ refs, st', level, r, r', hst, hst', h => by
    have hkind := Stmt.initials_of_outline hst hst' h
    cases hst with
    | read hrefs =>
      cases hst' with
      | read hrefs' =>
        rw [toList_read, toList_read, List.append_cancel_left_eq, List.append_cancel_left_eq] at h
        obtain ⟨hsame, hrest⟩ :=
          VarRef.legible.intercalate (fun h => VarRef.ne_newline h) hrefs hrefs' h
        exact ⟨by rw [Stmt.recast, Stmt.recast, hsame], hrest⟩
      | _ => simp [Stmt.initials] at hkind
  | .write _ es, st', level, r, r', hst, hst', h => by
    have hkind := Stmt.initials_of_outline hst hst' h
    cases hst with
    | write hes =>
      cases hst' with
      | write hes' =>
        rw [toList_write, toList_write, List.append_cancel_left_eq, List.append_cancel_left_eq] at h
        obtain ⟨hsame, hrest⟩ := Expr.legible.intercalate (fun h => Expr.ne_newline h) hes hes' h
        exact ⟨by rw [Stmt.recast, Stmt.recast, hsame], hrest⟩
      | _ => simp [Stmt.initials] at hkind
  | .loop _ cond (some b), st', level, r, r', hst, hst', h => by
    have hkind := Stmt.initials_of_outline hst hst' h
    cases hst with
    | loop hcond hb =>
      cases hst' with
      | loop hcond' hb' =>
        rw [toList_loop, toList_loop, List.append_cancel_left_eq, List.append_cancel_left_eq] at h
        obtain ⟨hsame, h⟩ := Expr.legible hcond hcond' wordEnds_close wordEnds_close h
        obtain ⟨hbody, hrest⟩ :=
          Block.shape_of_outline hb hb' (List.cons.inj (List.cons.inj h).2).2
        exact ⟨by rw [Stmt.recast, Stmt.recast, hsame, hbody], hrest⟩
      | _ => simp [Stmt.initials] at hkind
  | .loop _ _ none, _, _, _, _, hst, _, _ => by cases hst
  | .gap _, _, _, _, _, hst, _, _ => by cases hst

theorem Block.shape_of_outline : ∀ {b b' : Block} {level : ℕ} {r r' : List Char}, b.Readable →
    b'.Readable → (b.outline level).toList ++ r = (b'.outline level).toList ++ r' →
      b.recast .plain = b'.recast .plain ∧ r = r'
  | .mk _ ss, .mk _ ss', level, r, r', .mk hss, .mk hss', h => by
    rw [toList_block, toList_block, List.append_cancel_left_eq, List.append_cancel_left_eq] at h
    have hword : ∀ n : ℕ, IsWord (toString n).toList := fun n => by simpa using isWord_toDigits n
    obtain ⟨hlen, h⟩ := append_inj_of_word (hword _) (hword _) wordEnds_blank wordEnds_blank h
    obtain ⟨hsame, hrest⟩ := Stmt.shapes_of_outlineAll hss hss'
      (Lowering.toString_injective (String.toList_inj.1 hlen))
      (List.append_cancel_left (List.cons.inj h).2)
    exact ⟨by rw [Block.recast, Block.recast, hsame], hrest⟩

theorem Stmt.shapes_of_outlineAll : ∀ {ss ss' : List Stmt} {level : ℕ} {r r' : List Char},
    (∀ st ∈ ss, st.Readable) → (∀ st ∈ ss', st.Readable) → ss.length = ss'.length →
    (Stmt.outlineAll level ss).toList ++ r = (Stmt.outlineAll level ss').toList ++ r' →
      Stmt.recastAll .plain ss = Stmt.recastAll .plain ss' ∧ r = r'
  | [], [], _, _, _, _, _, _, h => ⟨rfl, List.append_cancel_left h⟩
  | [], _ :: _, _, _, _, _, _, hlen, _ => by cases hlen
  | _ :: _, [], _, _, _, _, _, hlen, _ => by cases hlen
  | st :: ss, st' :: ss', level, r, r', hss, hss', hlen, h => by
    rw [Stmt.outlineAll, Stmt.outlineAll, String.toList_append, String.toList_append,
      List.append_assoc, List.append_assoc] at h
    obtain ⟨hst, hss⟩ := List.forall_mem_cons.1 hss
    obtain ⟨hst', hss'⟩ := List.forall_mem_cons.1 hss'
    obtain ⟨hfirst, h⟩ := Stmt.shape_of_outline hst hst' h
    obtain ⟨hothers, hrest⟩ := Stmt.shapes_of_outlineAll hss hss' (Nat.succ.inj hlen) h
    exact ⟨by rw [Stmt.recastAll, Stmt.recastAll, hfirst, hothers], hrest⟩

end

end WhileAsm
