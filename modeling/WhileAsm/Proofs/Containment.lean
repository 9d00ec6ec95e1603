import Mathlib.Data.List.Nodup
import Mathlib.Tactic.Common
import WhileAsm.Proofs.Stages

/-!
# Where a build puts its files

In a clean location each piece stays where it was added (`Location.Settled`), so cleaning it again
changes nothing (`Location.cleanPieces_cleanChars`) and a name joined to it is one more piece behind
the others (`Location.childOf_join`). The directory of a platform is such a location, whatever
directory was asked for, and a file name without dots and slashes can neither leave it nor be read
as another name with an extension.

`artifacts_contained` says this of the paths of a build and of the files that are there after it.
-/

namespace WhileAsm.Build

namespace Location

/-! ## Pieces -/

theorem pieces_append_slash (cs ds : List Char) :
    pieces (cs ++ '/' :: ds) = pieces cs ++ pieces ds := by
  induction cs with
  | nil => simp [pieces]
  | cons c cs ih =>
    rw [List.cons_append, pieces, pieces, ih]
    split_ifs with hc
    · rfl
    · obtain ⟨p, ps, hp⟩ := List.exists_cons_of_ne_nil (pieces_ne_nil cs)
      simp [hp]

theorem pieces_of_notMem {cs : List Char} (h : '/' ∉ cs) : pieces cs = [cs] := by
  induction cs with
  | nil => rfl
  | cons c cs ih =>
    simp only [List.mem_cons, not_or] at h
    rw [pieces, if_neg (Ne.symm h.1), ih h.2]

theorem joinPieces_cons (p : Piece) {ps : List Piece} (h : ps ≠ []) :
    joinPieces (p :: ps) = p ++ '/' :: joinPieces ps := by
  obtain ⟨q, qs, rfl⟩ := List.exists_cons_of_ne_nil h
  rfl

theorem joinPieces_concat {ps : List Piece} (h : ps ≠ []) (p : Piece) :
    joinPieces (ps ++ [p]) = joinPieces ps ++ '/' :: p := by
  induction ps with
  | nil => exact absurd rfl h
  | cons q qs ih =>
    by_cases hqs : qs = []
    · simp [hqs, joinPieces]
    · rw [List.cons_append, joinPieces_cons q (by simp), joinPieces_cons q hqs, ih hqs]
      simp

theorem pieces_joinPieces {ps : List Piece} (h : ps ≠ []) (hslash : ∀ p ∈ ps, '/' ∉ p) :
    pieces (joinPieces ps) = ps := by
  induction ps with
  | nil => exact absurd rfl h
  | cons p ps ih =>
    have hp : pieces p = [p] := pieces_of_notMem (hslash p List.mem_cons_self)
    by_cases hps : ps = []
    · rw [hps]
      exact hp
    · rw [joinPieces_cons p hps, pieces_append_slash, hp,
        ih hps fun q hq => hslash q (List.mem_cons_of_mem _ hq)]
      rfl

/-! ## Clean locations -/

/-- Pieces, the last one first, each of which stays where it is added to those before it. -/
def Settled (rooted : Bool) : List Piece → Prop
  | [] => True
  | p :: before => addPiece rooted before p = p :: before ∧ '/' ∉ p ∧ Settled rooted before

section Settled

variable {rooted : Bool} {before ps : List Piece} {p : Piece}

theorem addPiece_cases (rooted : Bool) (before : List Piece) (p : Piece) :
    addPiece rooted before p = p :: before ∨ addPiece rooted before p = before
      ∨ addPiece rooted before p = before.tail := by
  unfold addPiece
  by_cases hskip : p = [] ∨ p = here
  · exact .inr (.inl (if_pos hskip))
  rw [if_neg hskip]
  by_cases hparent : p = parent
  · rw [if_pos hparent]
    cases before with
    | nil => cases rooted <;> simp [hparent]
    | cons last rest => by_cases hlast : last = parent <;> simp [hlast, hparent]
  · exact .inl (if_neg hparent)

theorem Settled.addPiece (h : Settled rooted before) (hp : '/' ∉ p) :
    Settled rooted (addPiece rooted before p) := by
  rcases addPiece_cases rooted before p with hadd | hadd | hadd
  · rw [hadd]
    exact ⟨hadd, hp, h⟩
  · rwa [hadd]
  · rw [hadd]
    cases before with
    | nil => trivial
    | cons last rest => exact h.2.2

theorem Settled.foldl (h : Settled rooted before) (hps : ∀ p ∈ ps, '/' ∉ p) :
    Settled rooted (ps.foldl (Location.addPiece rooted) before) := by
  induction ps generalizing before with
  | nil => exact h
  | cons p ps ih =>
    exact ih (h.addPiece (hps p List.mem_cons_self)) fun q hq => hps q (List.mem_cons_of_mem _ hq)

/-- Settled pieces that are added in their order are all there again. -/
theorem Settled.foldl_reverse :
    ∀ {before : List Piece}, Settled rooted before →
      before.reverse.foldl (Location.addPiece rooted) [] = before
  | [], _ => rfl
  | p :: before, h => by
    rw [List.reverse_cons, List.foldl_append, Settled.foldl_reverse h.2.2]
    exact h.1

theorem Settled.of_mem : ∀ {before : List Piece}, Settled rooted before →
    ∀ p ∈ before, p ≠ [] ∧ '/' ∉ p
  | q :: before, h, p, hp => by
    rcases List.mem_cons.1 hp with rfl | hp
    · refine ⟨?_, h.2.1⟩
      -- an empty piece is left out, so it would not have stayed
      rintro rfl
      simpa [Location.addPiece] using h.1
    · exact Settled.of_mem h.2.2 p hp

end Settled

section Clean

variable (path : List Char)

theorem settled_cleanPieces : Settled (isRooted path) (cleanPieces path).reverse := by
  rw [cleanPieces, List.reverse_reverse]
  exact Settled.foldl trivial slash_notMem_of_mem_pieces

theorem ne_nil_of_mem_cleanPieces {p : Piece} (hp : p ∈ cleanPieces path) : p ≠ [] ∧ '/' ∉ p :=
  (settled_cleanPieces path).of_mem p (List.mem_reverse.2 hp)

theorem foldl_cleanPieces :
    (cleanPieces path).foldl (addPiece (isRooted path)) [] = (cleanPieces path).reverse := by
  simpa using (settled_cleanPieces path).foldl_reverse

/-- The first character of joined pieces is that of the first piece. -/
theorem isRooted_joinPieces {ps : List Piece} (h : ∀ p ∈ ps, p ≠ [] ∧ '/' ∉ p) :
    isRooted (joinPieces ps) = false := by
  cases ps with
  | nil => rfl
  | cons p ps =>
    obtain ⟨hne, hslash⟩ := h p List.mem_cons_self
    obtain ⟨c, cs, rfl⟩ := List.exists_cons_of_ne_nil hne
    have hc : c ≠ '/' := by
      rintro rfl
      exact hslash List.mem_cons_self
    cases ps <;> simp [isRooted, joinPieces, hc]

theorem joinPieces_eq_nil {ps : List Piece} (h : ∀ p ∈ ps, p ≠ []) (hnil : joinPieces ps = []) :
    ps = [] := by
  cases ps with
  | nil => rfl
  | cons p ps =>
    have hp : p ≠ [] := h p List.mem_cons_self
    cases ps <;> simp [joinPieces, hp] at hnil

theorem cleanChars_of_nil (h : cleanPieces path = []) :
    cleanChars path = if isRooted path then ['/'] else here := by
  simp [cleanChars, h, joinPieces]

theorem cleanChars_of_ne_nil (h : cleanPieces path ≠ []) :
    cleanChars path = (if isRooted path then ['/'] else []) ++ joinPieces (cleanPieces path) := by
  have hbody : joinPieces (cleanPieces path) ≠ [] := fun hnil =>
    h (joinPieces_eq_nil (fun p hp => (ne_nil_of_mem_cleanPieces path hp).1) hnil)
  cases hroot : isRooted path <;> simp [cleanChars, hroot, hbody]

theorem isRooted_cleanChars : isRooted (cleanChars path) = isRooted path := by
  by_cases h : cleanPieces path = []
  · rw [cleanChars_of_nil path h]
    cases isRooted path <;> rfl
  · rw [cleanChars_of_ne_nil path h]
    cases isRooted path with
    | true => rfl
    | false => exact isRooted_joinPieces fun p => ne_nil_of_mem_cleanPieces path

/-- A clean location has the pieces that it was made of, but for the empty one before the root and
for the one that stands for no piece at all. Neither changes anything when it is added. -/
theorem foldl_pieces_cleanChars :
    (pieces (cleanChars path)).foldl (addPiece (isRooted path)) []
      = (cleanPieces path).foldl (addPiece (isRooted path)) [] := by
  by_cases h : cleanPieces path = []
  · rw [cleanChars_of_nil path h, h]
    cases isRooted path <;> decide
  · have hpieces : pieces (joinPieces (cleanPieces path)) = cleanPieces path :=
      pieces_joinPieces h fun p hp => (ne_nil_of_mem_cleanPieces path hp).2
    rw [cleanChars_of_ne_nil path h]
    cases isRooted path with
    | true =>
      have hroot : pieces ('/' :: joinPieces (cleanPieces path)) = [] :: cleanPieces path := by
        rw [pieces, if_pos rfl, hpieces]
      change (pieces ('/' :: joinPieces (cleanPieces path))).foldl (addPiece true) [] = _
      rw [hroot]
      rfl
    | false => exact congrArg (List.foldl (addPiece false) []) hpieces

theorem cleanPieces_cleanChars : cleanPieces (cleanChars path) = cleanPieces path := by
  rw [cleanPieces, isRooted_cleanChars, foldl_pieces_cleanChars, foldl_cleanPieces,
    List.reverse_reverse]

theorem cleanChars_cleanChars : cleanChars (cleanChars path) = cleanChars path := by
  rw [cleanChars, isRooted_cleanChars, cleanPieces_cleanChars]
  rfl

end Clean

theorem clean_clean (path : String) : clean (clean path) = clean path := by
  simp [clean, cleanChars_cleanChars]

/-! ## Names in a directory -/

/-- A piece that names something: neither a way up or nowhere, nor several pieces. -/
structure IsName (p : Piece) : Prop where
  ne_nil : p ≠ []
  ne_here : p ≠ here
  ne_parent : p ≠ parent
  noSlash : '/' ∉ p

section Names

variable {path : List Char} {p : Piece}

theorem pieces_append_name (path : List Char) (hp : IsName p) :
    pieces (path ++ '/' :: p) = pieces path ++ [p] := by
  rw [pieces_append_slash, pieces_of_notMem hp.noSlash]

theorem isRooted_append (h : path ≠ []) (cs : List Char) :
    isRooted (path ++ cs) = isRooted path := by
  obtain ⟨c, ds, rfl⟩ := List.exists_cons_of_ne_nil h
  rfl

/-- A name behind a location is a piece behind its clean pieces, wherever these lead. -/
theorem cleanPieces_append_name (h : path ≠ []) (hp : IsName p) :
    cleanPieces (path ++ '/' :: p) = cleanPieces path ++ [p] := by
  have hadd : ∀ rooted before, addPiece rooted before p = p :: before := by
    intro rooted before
    simp [addPiece, hp.ne_nil, hp.ne_here, hp.ne_parent]
  rw [cleanPieces, isRooted_append h, pieces_append_name path hp, List.foldl_append, List.foldl_cons,
    List.foldl_nil, hadd, List.reverse_cons]
  rfl

theorem cleanChars_append_name (hclean : cleanChars path = path) (hne : cleanPieces path ≠ [])
    (hp : IsName p) : cleanChars (path ++ '/' :: p) = path ++ '/' :: p := by
  have hpath : path ≠ [] := by
    rintro rfl
    exact hne rfl
  have hpieces := cleanPieces_append_name hpath hp
  calc cleanChars (path ++ '/' :: p)
      = (if isRooted path then ['/'] else []) ++ joinPieces (cleanPieces path ++ [p]) := by
        rw [cleanChars_of_ne_nil _ (by simp [hpieces]), isRooted_append hpath, hpieces]
    _ = cleanChars path ++ '/' :: p := by
        rw [joinPieces_concat hne, cleanChars_of_ne_nil path hne, List.append_assoc]
    _ = path ++ '/' :: p := by rw [hclean]

end Names

end Location

namespace Disk

variable {d : Disk} {q : Place} {path : String}

theorem place_eq_ok_iff : d.place path = .ok q ↔
    '\x00' ∉ path.toList ∧ path ≠ "" ∧ path.utf8ByteSize ≤ maxPath
      ∧ ((Location.pieces path.toList).map String.ofList).foldlM d.follow
          (if Location.isRooted path.toList then [] else d.workDir) = .ok q := by
  unfold place
  by_cases hnul : '\x00' ∈ path.toList
  · simp [hnul]
  by_cases hempty : path = ""
  · simp [hempty]
  by_cases hlong : path.utf8ByteSize ≤ maxPath
  · simp [hnul, hempty, hlong, Nat.not_lt.2 hlong]
  · simp [hnul, hempty, hlong, Nat.not_le.1 hlong]

theorem follow_name {p : Place} {name : String} (hname : Location.IsName name.toList)
    (h : d.follow p name = .ok q) : q = p ++ [name] := by
  have hempty : name ≠ "" := by
    rintro rfl
    exact hname.ne_nil rfl
  have hhere : name ≠ "." := by
    rintro rfl
    exact hname.ne_here rfl
  have hparent : name ≠ ".." := by
    rintro rfl
    exact hname.ne_parent rfl
  unfold follow at h
  split at h
  · cases h
  · cases h
  · simp only [hempty, hhere, hparent, or_self, if_false] at h
    split_ifs at h
    cases h
    rfl

end Disk

/-- A path that lies directly inside a directory, as a text and on every disk where it can be
followed. -/
structure ChildOf (dir name path : String) : Prop where
  eq : path = dir ++ "/" ++ name
  clean : Location.clean path = path
  base : Location.base path = name
  lineage : Location.lineage path = path :: Location.lineage dir
  place : ∀ {d : Disk} {q : Place}, d.place path = .ok q →
    ∃ p, d.place dir = .ok p ∧ q = p ++ [name]

theorem toList_child (dir name : String) :
    (dir ++ "/" ++ name).toList = dir.toList ++ '/' :: name.toList := by
  simp

section Child

variable {dir name : String} (hname : Location.IsName name.toList)
include hname

theorem pieces_child : Location.pieces (dir ++ "/" ++ name).toList
    = Location.pieces dir.toList ++ [name.toList] := by
  rw [toList_child, Location.pieces_append_name _ hname]

theorem base_child : Location.base (dir ++ "/" ++ name) = name := by
  rw [Location.base, pieces_child hname]
  simp [hname.ne_nil]

theorem lineage_child : Location.lineage (dir ++ "/" ++ name)
    = (dir ++ "/" ++ name) :: Location.lineage dir := by
  have hpath := Location.joinPieces_pieces (dir ++ "/" ++ name).toList
  rw [pieces_child hname] at hpath
  unfold Location.lineage
  rw [pieces_child hname]
  generalize Location.pieces dir.toList = ps at hpath
  have hshorter : ∀ i ∈ List.range ps.length,
      String.ofList (Location.joinPieces ((ps ++ [name.toList]).take (i + 1)))
        = String.ofList (Location.joinPieces (ps.take (i + 1))) := by
    intro i hi
    rw [List.take_append_of_le_length (List.mem_range.1 hi)]
  have hwhole : String.ofList (Location.joinPieces ((ps ++ [name.toList]).take (ps.length + 1)))
      = dir ++ "/" ++ name := by
    rw [List.take_of_length_le (by simp), hpath, String.ofList_toList]
  have hne : dir ++ "/" ++ name ≠ "" := by
    intro h
    simpa using congrArg String.toList h
  simp only [List.length_append, List.length_singleton, List.range_succ, List.map_append,
    List.map_cons, List.map_nil, hwhole, List.map_congr_left hshorter, List.filter_append,
    List.reverse_append]
  simp [hne]

theorem place_child {d : Disk} {q : Place} (hdir : dir ≠ "")
    (h : d.place (dir ++ "/" ++ name) = .ok q) : ∃ p, d.place dir = .ok p ∧ q = p ++ [name] := by
  obtain ⟨hnul, -, hlong, hfold⟩ := Disk.place_eq_ok_iff.1 h
  have hrooted : Location.isRooted (dir ++ "/" ++ name).toList = Location.isRooted dir.toList := by
    rw [toList_child]
    exact Location.isRooted_append (by simpa using hdir) _
  rw [pieces_child hname, hrooted, List.map_append, List.foldlM_append] at hfold
  cases hstart : ((Location.pieces dir.toList).map String.ofList).foldlM d.follow
      (if Location.isRooted dir.toList then [] else d.workDir) with
  | error cause =>
    rw [hstart] at hfold
    cases hfold
  | ok p =>
    rw [hstart] at hfold
    have hstep : d.follow p name = .ok q := by
      change [String.ofList name.toList].foldlM d.follow p = .ok q at hfold
      simpa only [String.ofList_toList, List.foldlM_cons, List.foldlM_nil, bind_pure] using hfold
    refine ⟨p, Disk.place_eq_ok_iff.2 ⟨?_, hdir, ?_, hstart⟩, Disk.follow_name hname hstep⟩
    · rw [toList_child, List.mem_append, not_or] at hnul
      exact hnul.1
    · simp only [String.utf8ByteSize_append] at hlong
      omega

end Child

theorem childOf_join {dir name : String} (hclean : Location.clean dir = dir)
    (hne : Location.cleanPieces dir.toList ≠ []) (hname : Location.IsName name.toList) :
    ChildOf dir name (Location.join dir name) := by
  have hdir : dir ≠ "" := by
    rintro rfl
    exact hne rfl
  have hkept : Location.clean (dir ++ "/" ++ name) = dir ++ "/" ++ name := by
    have hchars : Location.cleanChars dir.toList = dir.toList := by
      simpa [Location.clean] using congrArg String.toList hclean
    rw [Location.clean, toList_child, Location.cleanChars_append_name hchars hne hname,
      ← toList_child, String.ofList_toList]
  have hjoin : Location.join dir name = dir ++ "/" ++ name := by
    rw [Location.join, if_pos hdir, hkept]
  rw [hjoin]
  exact ⟨rfl, hkept, base_child hname, lineage_child hname, place_child hname hdir⟩

/-- A path lies directly inside one directory only. -/
theorem ChildOf.unique {dir dir' name name' path : String} (h : ChildOf dir name path)
    (h' : ChildOf dir' name' path) : dir = dir' ∧ name = name' := by
  have hname : name = name' := h.base.symm.trans h'.base
  have hpath : dir ++ "/" ++ name = dir' ++ "/" ++ name := by rw [← h.eq, hname, ← h'.eq]
  have hlists := congrArg String.toList hpath
  simp only [String.toList_append, List.append_cancel_right_eq, String.toList_inj] at hlists
  exact ⟨hlists, hname⟩

/-! ## The names of a build -/

def extensions : List String := [Asm.asmExtension, Asm.objectExtension, Asm.executableExtension]

def Files.paths (f : Files) : List String := [f.asm, f.object, f.executable]

theorem slash_notMem_extension {ext : String} (h : ext ∈ extensions) : '/' ∉ ext.toList := by
  revert ext
  decide

namespace Options

variable (o : Options)

/-- The directory of all builds. -/
def buildDir : String := nonEmpty o.dir "build"

/-- The name of the directory of the platform. -/
def platform : String := o.target.os.text ++ "_x86_64"

/-- The characters that a file name does not keep. -/
def separators : List Char := ['/', '\\', '.', ' ']

theorem buildDir_ne_empty : o.buildDir ≠ "" := nonEmpty_ne_empty _ (by decide)

theorem isSeparator_iff (c : Char) : isSeparator c ↔ c ∈ separators := by
  simp only [isSeparator, separators, Bool.or_eq_true, beq_iff_eq, List.mem_cons, List.not_mem_nil,
    or_false]
  tauto

theorem toList_fileName : o.fileName.toList
    = (nonEmpty o.name "output").toList.map fun c => if c ∈ separators then '_' else c := by
  simp only [fileName, String.toList_map, isSeparator_iff]

theorem fileName_ne_empty : o.fileName ≠ "" := by
  intro h
  have hnil := toList_fileName o
  rw [h] at hnil
  have hname : nonEmpty o.name "output" ≠ "" := nonEmpty_ne_empty _ (by decide)
  simp [hname] at hnil

theorem notMem_separators {c : Char} (h : c ∈ o.fileName.toList) : c ∉ separators := by
  rw [toList_fileName, List.mem_map] at h
  obtain ⟨a, -, rfl⟩ := h
  split_ifs with ha
  · decide
  · exact ha

theorem dot_notMem_fileName : '.' ∉ o.fileName.toList := fun h =>
  notMem_separators o h (by decide)

/-- A file name with an extension is one piece and no way up, since it starts with no dot. -/
theorem isName_fileName {ext : String} (h : '/' ∉ ext.toList) :
    Location.IsName (o.fileName ++ ext).toList := by
  have hne : o.fileName.toList ≠ [] := by simpa using fileName_ne_empty o
  obtain ⟨c, cs, hcs⟩ := List.exists_cons_of_ne_nil hne
  have hc : c ≠ '.' := by
    rintro rfl
    exact dot_notMem_fileName o (hcs ▸ List.mem_cons_self)
  have hslash : '/' ∉ o.fileName.toList := fun hmem => notMem_separators o hmem (by decide)
  rw [String.toList_append]
  refine ⟨by simp [hne], ?_, ?_, by simp [hslash, h]⟩
  · simp [hcs, Location.here, hc]
  · simp [hcs, Location.parent, hc]

theorem isName_platform : Location.IsName o.platform.toList := by
  unfold platform
  cases o.target.os <;> exact ⟨by decide, by decide, by decide, by decide⟩

theorem fileDir_join : o.fileDir = Location.join o.buildDir o.platform := rfl

theorem fileDir_eq : o.fileDir = Location.clean (o.buildDir ++ "/" ++ o.platform) := by
  rw [fileDir_join, Location.join, if_pos (buildDir_ne_empty o)]

theorem cleanPieces_fileDir : Location.cleanPieces o.fileDir.toList
    = Location.cleanPieces o.buildDir.toList ++ [o.platform.toList] := by
  have hne : o.buildDir.toList ≠ [] := by simpa using buildDir_ne_empty o
  rw [fileDir_eq, Location.clean, String.toList_ofList, Location.cleanPieces_cleanChars,
    toList_child, Location.cleanPieces_append_name hne (isName_platform o)]

theorem clean_fileDir : Location.clean o.fileDir = o.fileDir := by
  rw [fileDir_eq, Location.clean_clean]

theorem childOf_fileDir {ext : String} (h : '/' ∉ ext.toList) :
    ChildOf o.fileDir (o.fileName ++ ext) (Location.join o.fileDir (o.fileName ++ ext)) := by
  refine childOf_join (clean_fileDir o) ?_ (isName_fileName o h)
  simp [cleanPieces_fileDir]

theorem paths_eq : o.files.paths
    = extensions.map fun ext => Location.join o.fileDir (o.fileName ++ ext) := by
  simp only [Files.paths, files, Files.inside, extensions, List.map_cons, List.map_nil]

theorem childOf_of_mem_paths {path : String} (h : path ∈ o.files.paths) :
    ∃ ext ∈ extensions, ChildOf o.fileDir (o.fileName ++ ext) path := by
  rw [paths_eq, List.mem_map] at h
  obtain ⟨ext, hext, rfl⟩ := h
  exact ⟨ext, hext, childOf_fileDir o (slash_notMem_extension hext)⟩

theorem nodup_paths : o.files.paths.Nodup := by
  rw [paths_eq]
  refine List.Nodup.map_on (fun ext hext ext' hext' heq => ?_) (by decide)
  have hchild := childOf_fileDir o (slash_notMem_extension hext)
  have hchild' := childOf_fileDir o (slash_notMem_extension hext')
  rw [← heq] at hchild'
  simpa [← String.toList_inj] using (hchild.unique hchild').2

/-- The name has no dot of its own, so the extension is what follows the last dot. -/
theorem stem_of_mem_paths {path : String} (h : path ∈ o.files.paths) :
    Location.stem path = o.fileName := by
  obtain ⟨ext, hext, hchild⟩ := childOf_of_mem_paths o h
  have hdot := dot_notMem_fileName o
  simp only [extensions, List.mem_cons, List.not_mem_nil, or_false] at hext
  rw [Location.stem, hchild.base]
  rcases hext with rfl | rfl | rfl
  · simp [Asm.asmExtension]
  · simp [Asm.objectExtension]
  · simp [Asm.executableExtension, hdot]

theorem share_path_iff (o o' : Options) : (∃ path ∈ o.files.paths, path ∈ o'.files.paths)
    ↔ o.fileDir = o'.fileDir ∧ o.fileName = o'.fileName := by
  constructor
  · rintro ⟨path, h, h'⟩
    obtain ⟨ext, -, hchild⟩ := childOf_of_mem_paths o h
    obtain ⟨ext', -, hchild'⟩ := childOf_of_mem_paths o' h'
    refine ⟨(hchild.unique hchild').1, ?_⟩
    rw [← stem_of_mem_paths o h, stem_of_mem_paths o' h']
  · rintro ⟨hdir, hname⟩
    have hfiles : o.files = o'.files := by rw [files, files, hdir, hname]
    exact ⟨o.files.asm, List.mem_cons_self, hfiles ▸ List.mem_cons_self⟩

end Options

/-! ## What changes on the disk -/

/-- From one disk to the next, nothing changes but that directories are made and that the listing is
written to its file directly inside the directory of the platform. -/
def ChangesInside (o : Options) (d d' : Disk) : Prop :=
  ∀ q, d'.entry? q = d.entry? q ∨ d.entry? q = none ∧ d'.entry? q = some .directory
    ∨ ∃ dir, d'.place o.fileDir = .ok dir ∧ q = dir ++ [o.fileName ++ ".s"]

section Changes

variable {o : Options} {w w₁ : Workplace} {d : Disk} {text : String}

theorem KeepsFiles.entry?_cases (h : KeepsFiles w w₁) (q : Place) :
    w₁.disk.entry? q = w.disk.entry? q
      ∨ w.disk.entry? q = none ∧ w₁.disk.entry? q = some .directory := by
  cases hq : w.disk.entry? q with
  | some e => exact .inl (h.kept hq)
  | none =>
    cases hq' : w₁.disk.entry? q with
    | none => exact .inl rfl
    | some e =>
      cases e with
      | directory => exact .inr ⟨rfl, rfl⟩
      | file c =>
        have hfile := h.noFile hq'
        rw [hq] at hfile
        cases hfile

theorem KeepsFiles.changesInside (h : KeepsFiles w w₁) : ChangesInside o w.disk w₁.disk := fun q =>
  (h.entry?_cases q).imp id .inl

theorem KeepsFiles.changesInside_write (h : KeepsFiles w w₁)
    (hwrite : w₁.disk.writeFile o.files.asm text = .ok d) : ChangesInside o w.disk d := by
  obtain ⟨p, hp, hdir, rfl⟩ := Disk.writeFile_eq_ok hwrite
  have hchild : ChildOf o.fileDir (o.fileName ++ ".s") o.files.asm :=
    o.childOf_fileDir (by decide)
  obtain ⟨dir, hplace, hpdir⟩ := hchild.place hp
  intro q
  by_cases hq : q = p
  · refine .inr (.inr ⟨dir, ?_, hq.trans hpdir⟩)
    exact Disk.place_mono (d := w₁.disk) rfl (fun r => Disk.directory_put hdir) hplace
  · rw [Disk.entry?_put (Disk.ne_nil_of_ne_directory hdir), if_neg hq]
    exact (h.entry?_cases q).imp id .inl

/-- With a listing, a build writes it to its file, and without one or on a failure it writes
nothing. -/
theorem disk_finish (o : Options) (r : Except Lowering.GenError String) (w : Workplace) :
    ((finish o r).run w).2.disk = w.disk
      ∨ ∃ text, w.disk.writeFile o.files.asm text = .ok ((finish o r).run w).2.disk := by
  cases r with
  | error e => exact .inl rfl
  | ok text =>
    cases hwrite : w.disk.writeFile o.files.asm text with
    | error e =>
      left
      rw [finish, StateT.run_bind, run_writeFile, hwrite, Workplace.update]
      rfl
    | ok d =>
      obtain ⟨w', hrun, hran⟩ := run_written hwrite
      have hdisk : w'.disk = d := hran.disk
      right
      exact ⟨text, by rw [hrun, hdisk, hwrite]⟩

theorem changesInside_build (o : Options) (p : Option Program) (w : Workplace) :
    ChangesInside o w.disk ((build Workplace.keep o p).run w).2.disk := by
  generalize hdirs : (makeDirs o.fileDir : StateM Workplace _).run w = out
  obtain ⟨r, w₁⟩ := out
  have hkeeps := keepsFiles_of_run_makeDirs hdirs
  cases r with
  | error e =>
    have hrun : (build Workplace.keep o p).run w = (.error (.directory o.fileDir e), w₁) := by
      rw [build_eq, StateT.run_bind, hdirs]
      rfl
    rw [hrun]
    exact hkeeps.changesInside
  | ok u =>
    obtain ⟨es, hrun⟩ := run_build p hdirs
    rw [hrun]
    rcases disk_finish o (generate o.target p) { w₁ with events := es } with hsame | ⟨text, hwrite⟩
    · rw [hsame]
      exact hkeeps.changesInside
    · exact hkeeps.changesInside_write hwrite

end Changes

/-! ## Main result -/

/-- The files of a build are three direct children of the directory of its platform, whatever
directory and whatever name were asked for. -/
structure Contained (o : Options) : Prop where
  dir : o.fileDir = Location.join o.buildDir o.platform
  dirClean : Location.clean o.fileDir = o.fileDir
  dirPieces : Location.cleanPieces o.fileDir.toList
    = Location.cleanPieces o.buildDir.toList ++ [o.platform.toList]
  name : o.fileName.toList = (Options.nonEmpty o.name "output").toList.map
    fun c => if c ∈ Options.separators then '_' else c
  nameNonempty : o.fileName ≠ ""
  nameFree : ∀ c ∈ o.fileName.toList, c ∉ Options.separators
  asm : ChildOf o.fileDir (o.fileName ++ ".s") o.files.asm
  object : ChildOf o.fileDir (o.fileName ++ ".o") o.files.object
  executable : ChildOf o.fileDir o.fileName o.files.executable
  distinct : o.files.paths.Nodup

/-- The files of a build lie directly inside the directory of its platform, and two builds have a
file in common only if they have the directory and the name in common. So a build changes nothing
elsewhere on the disk, except that it makes directories. -/
theorem artifacts_contained (o o' : Options) :
    Contained o
      ∧ ((∃ path ∈ o.files.paths, path ∈ o'.files.paths)
          ↔ o.fileDir = o'.fileDir ∧ o.fileName = o'.fileName)
      ∧ ∀ p w, ChangesInside o w.disk ((build Workplace.keep o p).run w).2.disk := by
  have hexecutable : ChildOf o.fileDir (o.fileName ++ "") o.files.executable :=
    o.childOf_fileDir (by decide)
  rw [String.append_empty] at hexecutable
  refine ⟨?_, o.share_path_iff o', changesInside_build o⟩
  exact {
    dir := o.fileDir_join
    dirClean := o.clean_fileDir
    dirPieces := o.cleanPieces_fileDir
    name := o.toList_fileName
    nameNonempty := o.fileName_ne_empty
    nameFree := fun c => o.notMem_separators
    asm := o.childOf_fileDir (by decide)
    object := o.childOf_fileDir (by decide)
    executable := hexecutable
    distinct := o.nodup_paths }

example : Options.files { dir := "x/./..//out/", name := "../a.b" }
    = ⟨"out/linux_x86_64/___a_b.s", "out/linux_x86_64/___a_b.o", "out/linux_x86_64/___a_b"⟩ := by
  decide +kernel

end WhileAsm.Build
