import WhileAsm.Proofs.Likeness
import WhileAsm.Proofs.Recast
import WhileAsm.Tree.Outline

/-!
# Aliases and what they stand for

Every alias of a document is replaced by the node that it stands for (`Node.expand`). The document
loads as the same program afterwards if the aliases that are looked at as texts bear the name of the
text they stand for (`Node.wellNamed`, `program_expanded`). These are aliases in the place of a key,
a type or an operator: they are taken by their names. Numbers and truth values are taken through an
alias, and everywhere else an alias is rejected; so not even a position changes.

Without that condition an alias is read as something that it does not stand for: the sign `not`, if
this is its name, and never mind that it stands for a minus (`program_misreads_alias`).
-/

namespace WhileAsm

namespace Document.Node

open Load (field textKeys)

/-! ## Documents without aliases -/

mutual

/-- The document with what each alias stands for in its place. An alias inside the node that it
names remains. -/
def expand : Node → Node
  | scalar pos text form => scalar pos text form
  | sequence pos ns => sequence pos (expandAll ns)
  | mapping pos es => mapping pos (expandEntries es)
  | aliased _ _ target => target.expand
  | cycle pos name => cycle pos name

def expandAll : List Node → List Node
  | [] => []
  | n :: ns => n.expand :: expandAll ns

def expandEntries : List (Node × Node) → List (Node × Node)
  | [] => []
  | e :: es => expandEntry e :: expandEntries es

def expandEntry : Node × Node → Node × Node
  | (k, v) => (k.expand, v.expand)

end

/-- A node has the text of what it stands for. -/
def namedAsMeant (n : Node) : Bool := n.expand.text == n.text

mutual

/-- Every alias that is looked at as a text has the name of the text it stands for. Looked at as
texts are all keys of a mapping, and the first values under some of them. -/
def wellNamed : Node → Bool
  | sequence _ ns => wellNamedAll ns
  | mapping _ es => wellNamedEntries [] es
  | _ => true

def wellNamedAll : List Node → Bool
  | [] => true
  | n :: ns => n.wellNamed && wellNamedAll ns

/-- Entries after others, with the keys of those before. -/
def wellNamedEntries (seen : List String) : List (Node × Node) → Bool
  | [] => true
  | e :: es => wellNamedEntry seen e && wellNamedEntries (e.1.text :: seen) es

def wellNamedEntry (seen : List String) : Node × Node → Bool
  | (k, v) => k.namedAsMeant && (k.text ∈ seen
      || v.wellNamed && (k.text ∉ textKeys || v.namedAsMeant))

end

theorem expandAll_eq_map : ∀ ns : List Node, expandAll ns = ns.map expand
  | [] => by rw [expandAll, List.map_nil]
  | n :: ns => by rw [expandAll, expandAll_eq_map ns, List.map_cons]

theorem length_expandEntries : ∀ es : List (Node × Node), (expandEntries es).length = es.length
  | [] => by rw [expandEntries]
  | e :: es => by rw [expandEntries, List.length_cons, length_expandEntries es, List.length_cons]

theorem meaning?_expand : ∀ n : Node, n.expand.meaning? = n.meaning?
  | scalar .. | cycle .. => by rw [expand]
  | sequence .. | mapping .. => by rw [expand]; rfl
  | aliased _ _ target => by rw [expand, meaning?_expand target]; rfl

theorem wellNamed_of_mem : ∀ {ns : List Node}, wellNamedAll ns → ∀ n ∈ ns, n.wellNamed
  | [], _, n, hn => by simp at hn
  | m :: ns, h, n, hn => by
    rw [wellNamedAll, Bool.and_eq_true] at h
    rcases List.mem_cons.1 hn with rfl | hn
    · exact h.1
    · exact wellNamed_of_mem h.2 n hn

theorem wellNamedEntries_cons {seen : List String} {k v : Node} {es : List (Node × Node)} :
    wellNamedEntries seen ((k, v) :: es) ↔ k.expand.text = k.text
      ∧ (k.text ∈ seen ∨ v.wellNamed ∧ (k.text ∈ textKeys → v.expand.text = v.text))
      ∧ wellNamedEntries (k.text :: seen) es := by
  simp only [wellNamedEntries, wellNamedEntry, namedAsMeant, Bool.and_eq_true, Bool.or_eq_true,
    beq_iff_eq, decide_eq_true_eq, and_assoc, imp_iff_not_or]

/-- The keys keep their texts. -/
theorem keys_expandEntries : ∀ {seen : List String} {es : List (Node × Node)},
    wellNamedEntries seen es → ∀ e' ∈ expandEntries es, ∃ e ∈ es, e.1.text = e'.1.text
  | _, [], _, e', he' => by simp [expandEntries] at he'
  | seen, (k, v) :: es, h, e', he' => by
    obtain ⟨hkey, -, hes⟩ := wellNamedEntries_cons.1 h
    rw [expandEntries, List.mem_cons] at he'
    rcases he' with rfl | he'
    · exact ⟨(k, v), List.mem_cons_self .., hkey.symm⟩
    · obtain ⟨e, he, htext⟩ := keys_expandEntries hes e' he'
      exact ⟨e, List.mem_cons_of_mem _ he, htext⟩

/-- The first value under a key that was not there before is well-named, and it is what the first
value under that key becomes. -/
theorem field_expandEntries {key : String} {v : Node} : ∀ {seen : List String}
    {es : List (Node × Node)}, wellNamedEntries seen es → key ∉ seen → field key es = some v →
      field key (expandEntries es) = some v.expand ∧ v.wellNamed
        ∧ (key ∈ textKeys → v.expand.text = v.text)
  | _, [], _, _, hv => by simp [field] at hv
  | seen, (k, w) :: es, h, hseen, hv => by
    obtain ⟨hkey, hvalue, hes⟩ := wellNamedEntries_cons.1 h
    rw [expandEntries, expandEntry]
    simp only [field, hkey] at hv ⊢
    split_ifs at hv ⊢ with heq
    · cases hv
      subst heq
      obtain ⟨hnamed, htext⟩ := hvalue.resolve_left hseen
      exact ⟨rfl, hnamed, htext⟩
    · have hseen' : key ∉ k.text :: seen := by
        simp only [List.mem_cons, not_or]
        exact ⟨fun hk => heq hk.symm, hseen⟩
      exact field_expandEntries hes hseen' hv

end Document.Node

namespace Load

open Document (Node)

/-! ## Documents and what they stand for read alike -/

theorem likeness_expand : Likeness fun n n' => n.wellNamed ∧ n' = n.expand where
  scalar := by
    rintro pos text form n' ⟨-, rfl⟩
    rw [Node.expand]
  sequence := by
    rintro pos ns n' ⟨h, rfl⟩
    rw [Node.wellNamed] at h
    refine ⟨pos, ns.map Node.expand, by rw [Node.expand, Node.expandAll_eq_map], ?_⟩
    rw [List.forall₂_map_right_iff, List.forall₂_same]
    exact fun n hn => ⟨Node.wellNamed_of_mem h n hn, rfl⟩
  mapping := by
    rintro pos es n' ⟨h, rfl⟩
    rw [Node.wellNamed] at h
    refine ⟨_, by rw [Node.expand], Node.length_expandEntries es, Node.keys_expandEntries h, ?_⟩
    intro key v hv
    obtain ⟨hfield, hnamed, htext⟩ :=
      Node.field_expandEntries h List.not_mem_nil (field_eq_some_iff.2 hv)
    exact ⟨v.expand, field_eq_some_iff.1 hfield, ⟨hnamed, rfl⟩, htext⟩
  meaning := by
    rintro n n' ⟨-, rfl⟩
    exact n.meaning?_expand

/-- A document that loads, and whose aliases are named as what they stand for wherever their names
are looked at, loads as the same program with these nodes in their places. -/
theorem program_expanded {root : Node} (hnames : root.wellNamed) {p : Program}
    (h : program root = .ok p) : program root.expand = .ok p := by
  rw [program_eq_ok_iff] at h ⊢
  exact denotes_of_likeness likeness_expand ⟨hnames, rfl⟩ h

/-! ## Documents with aliases -/

/-- An alias for a type, named as the type, and one for a number, with a name of its own. -/
def aliasedType : String := "\n".intercalate
  ["declarations:",
    "- name: x",
    "  type: &bool bool",
    "- name: y",
    "  type: *bool",
    "statements:",
    "- write:",
    "  - int: &seven 7",
    "  - int: *seven"]

theorem program_expanded_aliasedType : ∃ root p,
    Document.parse aliasedType.toUTF8 = .ok (some root) ∧ root.wellNamed ∧ program root = .ok p
      ∧ program root.expand = .ok p := by
  obtain ⟨root, hroot, hview⟩ : ∃ root, Document.parse aliasedType.toUTF8 = .ok (some root)
      ∧ (root.wellNamed, (program root).isOk) = (true, true) := exists_root (by decide +kernel)
  obtain ⟨hnames, hok⟩ := Prod.mk.inj hview
  cases hp : program root with
  | error e =>
    rw [hp] at hok
    cases hok
  | ok p => exact ⟨root, p, hroot, hnames, hp, program_expanded hnames hp⟩

/-- Negates five twice. The second sign is an alias for the first, which has the name of the other
sign there is. -/
def misnamedSign : String := "\n".intercalate
  ["statements:",
    "- write:",
    "  - unary:",
    "      op: &not '-'",
    "      operand:",
    "        int: 5",
    "  - unary:",
    "      op: *not",
    "      operand:",
    "        int: 5"]

/-- The alias is read as `not` and stands for a minus: with the minus in its place the document
loads as another program, not only at other positions. -/
theorem program_misreads_alias : ∃ root p p',
    Document.parse misnamedSign.toUTF8 = .ok (some root) ∧ program root = .ok p
      ∧ program root.expand = .ok p' ∧ p.recast (.of id id id) ≠ p'.recast (.of id id id) := by
  let outline (p : Program) : String := Program.outline (some (p.recast (.of id id id)))
  obtain ⟨root, hroot, hview⟩ : ∃ root, Document.parse misnamedSign.toUTF8 = .ok (some root)
      ∧ ((program root).toOption.map outline, (program root.expand).toOption.map outline)
        = (some "Program\n  Block [1 statements]\n    Write (-5), (not 5)\n",
          some "Program\n  Block [1 statements]\n    Write (-5), (-5)\n") :=
    exists_root (by decide +kernel)
  obtain ⟨hread, hmeant⟩ := Prod.mk.inj hview
  cases hp : program root with
  | error e => simp [hp, Except.toOption] at hread
  | ok p =>
    cases hp' : program root.expand with
    | error e => simp [hp', Except.toOption] at hmeant
    | ok p' =>
      refine ⟨root, p, p', hroot, hp, hp', fun heq => ?_⟩
      rw [hp] at hread
      rw [hp'] at hmeant
      have hread := Option.some.inj hread
      have hmeant := Option.some.inj hmeant
      have houtline : outline p = outline p' := congrArg (fun q => Program.outline (some q)) heq
      rw [hread, hmeant] at houtline
      exact absurd houtline (by decide)

end Load

end WhileAsm
