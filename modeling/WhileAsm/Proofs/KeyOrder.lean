import Mathlib.Logic.Relation
import WhileAsm.Proofs.Likeness

/-!
# The order of entries

The entries of a mapping may stand in any order if their keys have different texts. One such
mapping, anywhere in a document, is put into another order by a step (`Reorders`), and any number
of mappings by steps one after the other. A step can be taken back (`Reorders.symm`), and documents
that differ by a step read alike (`likeness_reorders`), so the order means nothing: neither to what
is accepted nor to the program (`program_reordered`).
-/

namespace WhileAsm.Load

open Document (Node)
open Relation (ReflGen ReflTransGen)

/-- One mapping of a document has its entries in another order, each with its own positions. The
texts of its keys are different. -/
inductive Reorders : Node → Node → Prop where
  | entries {pos : Position} {es es' : List (Node × Node)} :
    (es.map fun e => e.1.text).Nodup → es.Perm es' → Reorders (.mapping pos es) (.mapping pos es')
  | item {pos : Position} (front back : List Node) {n n' : Node} : Reorders n n' →
    Reorders (.sequence pos (front ++ n :: back)) (.sequence pos (front ++ n' :: back))
  | key {pos : Position} (front back : List (Node × Node)) {k k' v : Node} : Reorders k k' →
    Reorders (.mapping pos (front ++ (k, v) :: back)) (.mapping pos (front ++ (k', v) :: back))
  | value {pos : Position} (front back : List (Node × Node)) {k v v' : Node} : Reorders v v' →
    Reorders (.mapping pos (front ++ (k, v) :: back)) (.mapping pos (front ++ (k, v') :: back))
  | target {pos : Position} {name : String} {n n' : Node} : Reorders n n' →
    Reorders (.aliased pos name n) (.aliased pos name n')

namespace Reorders

variable {n n' : Node}

theorem symm (h : Reorders n n') : Reorders n' n := by
  induction h with
  | entries hnodup hperm => exact .entries ((hperm.map _).nodup_iff.1 hnodup) hperm.symm
  | item front back _ ih => exact .item front back ih
  | key front back _ ih => exact .key front back ih
  | value front back _ ih => exact .value front back ih
  | target _ ih => exact .target ih

theorem text_eq (h : Reorders n n') : n'.text = n.text := by
  cases h <;> rfl

theorem meaning_eq (h : Reorders n n') : n'.meaning? = n.meaning? := by
  induction h with
  | target _ ih => exact ih
  | entries | item | key | value => rfl

end Reorders

/-! ## Entries in another order -/

/-- With keys of different texts, a value is the first one under its key wherever it stands. -/
theorem firstValue_of_mem {es : List (Node × Node)} (hnodup : (es.map fun e => e.1.text).Nodup)
    {k v : Node} (h : (k, v) ∈ es) : FirstValue k.text es v := by
  obtain ⟨front, back, rfl⟩ := List.append_of_mem h
  refine ⟨front, k, back, rfl, rfl, ?_⟩
  intro e he htext
  rw [List.map_append, List.nodup_append] at hnodup
  exact hnodup.2.2 e.1.text (List.mem_map_of_mem he) k.text (by simp) htext

theorem field_append {key : String} {es : List (Node × Node)} : ∀ {front : List (Node × Node)},
    field key (front ++ es) = (field key front).or (field key es)
  | [] => rfl
  | (k, v) :: front => by
    simp only [List.cons_append, field]
    split_ifs
    · rfl
    · exact field_append

section Entries

variable {R : Node → Node → Prop} (hrefl : ∀ n, R n n)
include hrefl

theorem SameEntries.of_perm {es es' : List (Node × Node)}
    (hnodup : (es.map fun e => e.1.text).Nodup) (hperm : es.Perm es') : SameEntries R es es' := by
  refine ⟨hperm.length_eq.symm, fun e he => ⟨e, hperm.mem_iff.2 he, rfl⟩, ?_⟩
  rintro key v ⟨front, k, back, rfl, rfl, -⟩
  have hmem : (k, v) ∈ es' := hperm.mem_iff.1 (by simp)
  have hnodup' : (es'.map fun e => e.1.text).Nodup := (hperm.map _).nodup_iff.1 hnodup
  exact ⟨v, firstValue_of_mem hnodup' hmem, hrefl v, fun _ => rfl⟩

/-- One entry is replaced by another with a key and a value of the same texts. -/
theorem SameEntries.replace {front back : List (Node × Node)} {k k' v v' : Node}
    (hkey : k'.text = k.text) (hvalue : R v v') (htext : v'.text = v.text) :
    SameEntries R (front ++ (k, v) :: back) (front ++ (k', v') :: back) := by
  refine ⟨by simp, ?_, ?_⟩
  · intro e he
    rcases List.mem_append.1 he with he | he
    · exact ⟨e, List.mem_append_left _ he, rfl⟩
    rcases List.mem_cons.1 he with rfl | he
    · exact ⟨(k, v), by simp, hkey.symm⟩
    · exact ⟨e, by simp [he], rfl⟩
  · intro key w hw
    simp only [← field_eq_some_iff, field_append, field, hkey] at hw ⊢
    cases hfront : field key front with
    | some w' =>
      simp only [hfront, Option.some_or] at hw ⊢
      exact ⟨w', rfl, Option.some.inj hw ▸ hrefl w', fun _ => congrArg _ (Option.some.inj hw)⟩
    | none =>
      simp only [hfront, Option.none_or] at hw ⊢
      split_ifs at hw ⊢
      · cases hw
        exact ⟨v', rfl, hvalue, fun _ => htext⟩
      · exact ⟨w, hw, hrefl w, fun _ => rfl⟩

end Entries

/-! ## Documents in another order -/

theorem likeness_reorders : Likeness (ReflGen Reorders) where
  scalar := by
    rintro pos text form n' (_ | h)
    · rfl
    · cases h
  sequence := by
    have hsame : ∀ ns : List Node, List.Forall₂ (ReflGen Reorders) ns ns :=
      fun ns => List.forall₂_same.2 fun _ _ => .refl
    rintro pos ns n' (_ | h)
    · exact ⟨pos, ns, rfl, hsame ns⟩
    · cases h with
      | item front back h =>
        exact ⟨pos, _, rfl, List.rel_append (hsame front) (.cons (.single h) (hsame back))⟩
  mapping := by
    have hrefl : ∀ n, ReflGen Reorders n n := fun _ => .refl
    rintro pos es n' (_ | h)
    · exact ⟨es, rfl, rfl, fun e he => ⟨e, he, rfl⟩, fun hv => ⟨_, hv, .refl, fun _ => rfl⟩⟩
    · cases h with
      | entries hnodup hperm => exact ⟨_, rfl, .of_perm hrefl hnodup hperm⟩
      | key _ _ h => exact ⟨_, rfl, .replace hrefl h.text_eq .refl rfl⟩
      | value _ _ h => exact ⟨_, rfl, .replace hrefl rfl (.single h) h.text_eq⟩
  meaning := by
    rintro n n' (_ | h)
    · rfl
    · exact h.meaning_eq

theorem denotes_of_reorders {root root' : Node} (h : Reorders root root') {p : Program}
    (hp : Denotes root p) : Denotes root' p :=
  denotes_of_likeness likeness_reorders (.single h) hp

/-- A document whose mappings have their entries in another order loads as the same program, with
the same positions and the same meaning of every name, or is rejected too. -/
theorem program_reordered {root root' : Node} (h : ReflTransGen Reorders root root') (p : Program) :
    program root = .ok p ↔ program root' = .ok p := by
  rw [program_eq_ok_iff, program_eq_ok_iff]
  induction h with
  | refl => exact Iff.rfl
  | tail _ hstep ih =>
    exact ih.trans ⟨denotes_of_reorders hstep, denotes_of_reorders hstep.symm⟩

/-! ## A document from back to front -/

/-- A document that declares a variable and assigns a difference to it. The functions say how the
entries of the difference, of the assignment and of the document are ordered. -/
def difference (inner middle outer : List (Node × Node) → List (Node × Node)) : Node :=
  let text (line column : Int) (t : String) : Node := .scalar ⟨line, column⟩ t .plain
  let operand (line : Int) (kind t : String) : Node :=
    .mapping ⟨line, 20⟩ [(text line 20 kind, text line 25 t)]
  let declaration : Node := .mapping ⟨2, 3⟩ [(text 2 3 "name", text 2 9 "x")]
  let source : Node := .mapping ⟨7, 7⟩ [(text 7 7 "binary", .mapping ⟨8, 9⟩ (inner
    [(text 8 9 "op", text 8 13 "-"), (text 9 9 "left", operand 9 "int" "7"),
      (text 10 9 "right", operand 10 "var" "x")]))]
  let assignment : Node := .mapping ⟨4, 3⟩ [(text 4 3 "assign", .mapping ⟨5, 7⟩ (middle
    [(text 5 7 "target", text 5 15 "x"), (text 6 7 "source", source)]))]
  .mapping ⟨1, 1⟩ (outer
    [(text 1 1 "declarations", .sequence ⟨2, 1⟩ [declaration]),
      (text 3 1 "statements", .sequence ⟨4, 1⟩ [assignment])])

theorem program_reordered_backwards : ∃ p, program (difference id id id) = .ok p
    ∧ program (difference List.reverse List.reverse List.reverse) = .ok p := by
  have hinner : Reorders (difference id id id) (difference List.reverse id id) :=
    .value [_] _ (.item [] _ (.value [] _ (.value [_] _
      (.value [] _ (.entries (by decide) (List.reverse_perm _).symm)))))
  have hmiddle : Reorders (difference List.reverse id id)
      (difference List.reverse List.reverse id) :=
    .value [_] _ (.item [] _ (.value [] _
      (.entries (by decide) (List.reverse_perm _).symm)))
  have houter : Reorders (difference List.reverse List.reverse id)
      (difference List.reverse List.reverse List.reverse) :=
    .entries (by decide) (List.reverse_perm _).symm
  have hiff := program_reordered (((ReflTransGen.single hinner).tail hmiddle).tail houter)
  cases h : program (difference id id id) with
  | error e =>
    have hok : (program (difference id id id)).isOk := by decide +kernel
    rw [h] at hok
    cases hok
  | ok p => exact ⟨p, rfl, (hiff p).1 h⟩

end WhileAsm.Load
