import Mathlib.Data.List.Basic
import Mathlib.Tactic.Common
import WhileAsm.Build.Pipeline
import WhileAsm.Build.Workplace

/-!
# What a build does and what it says

A build runs its tools one after the other, up to the first that fails (`Workplace.upTo`), and each
stage that passes adds its file to what was made (`Workplace.outcome`). A location leads through
directories only. So making directories changes no file that can be read (`KeepsFiles.readFile`),
and a listing that was written can be read again (`Disk.readFile_writeFile`).

`build_truthful` puts this together: without a listing nothing is written and nothing is run, and
otherwise the files, the tools that ran and the answer agree.
-/

namespace WhileAsm.Build

open Asm (Target)
open Journal (Event)

/-! ## The plan of a build -/

/-- The stages of a target in their order. -/
def Stage.chain (t : Target) : List Stage :=
  match t.os with
  | .darwin => [.assemble, .link]
  | _ => [.assemble, .rename, .link]

namespace Workplace

def lacks (w : Workplace) (s : Stage) : Bool := (w.tool? s.tool).isNone

/-- Why a stage fails, if it does. -/
def failure? (w : Workplace) (s : Stage) : Option ToolFailure :=
  match w.tool? s.tool with
  | none => some ⟨127, s.tool ++ ": not found\n"⟩
  | some tool => if tool.status = 0 then none else some ⟨tool.status.toNat, tool.complaint⟩

def passes (w : Workplace) (s : Stage) : Bool := (w.failure? s).isNone

/-- Stages up to the first that fails, which is the last to run. -/
def upTo (w : Workplace) (ss : List Stage) : List Stage :=
  ss.takeWhile w.passes ++ (ss.dropWhile w.passes).take 1

end Workplace

namespace Options

/-- A tool of the target is missing. -/
def lacks (o : Options) (w : Workplace) : Bool := (Stage.chain o.target).any w.lacks

/-- The stages that run once there is a listing. -/
def stages (o : Options) (w : Workplace) : List Stage :=
  if o.asmOnly then []
  else if o.lacks w then []
  else if o.skipLink then [.assemble]
  else w.upTo (Stage.chain o.target)

/-- The call of a stage's tool. -/
def call (o : Options) (s : Stage) : List String := s.tool :: s.args o.target o.files

end Options

/-- What a build returns besides an error. -/
def returned? : Except BuildError Artifacts → Option Artifacts
  | .ok a => some a
  | .error e => e.made?

/-- The directory of a build can be made, and its listing be written there. -/
def Workplace.Writable (w : Workplace) (o : Options) : Prop :=
  ∃ w₁, (makeDirs o.fileDir : StateM Workplace _).run w = (.ok (), w₁)
    ∧ ∀ text, ∃ d, w₁.disk.writeFile o.files.asm text = .ok d

/-- A build without a listing returns nothing but an error, writes no file and runs no tool. -/
structure Refused (w w' : Workplace) (e : Lowering.GenError)
    (result : Except BuildError Artifacts) : Prop where
  error : result = .error (.generation e)
  nothing : returned? result = none
  noFile : ∀ {p c}, w'.disk.entry? p = some (.file c) → w.disk.entry? p = some (.file c)
  content : ∀ {path text}, w.disk.readFile path = .ok text → w'.disk.readFile path = .ok text
  calls : w'.calls = w.calls

/-- The names are those of the tools that a build needs and does not find. -/
structure NamesMissing (o : Options) (w : Workplace) (names : List String) : Prop where
  ordered : names.Sublist ["as (assembler)", "cc (linker driver)", "objcopy (symbol renamer)"]
  assembler : "as (assembler)" ∈ names ↔ o.asmOnly = false ∧ w.tool? "as" = none
  linker : "cc (linker driver)" ∈ names ↔ o.asmOnly = false ∧ w.tool? "cc" = none
  renamer : "objcopy (symbol renamer)" ∈ names
    ↔ o.asmOnly = false ∧ o.target.os ≠ .darwin ∧ w.tool? "objcopy" = none

/-- A build warns of missing tools, and says where its listing is. -/
def Warned (o : Options) (w : Workplace) (warnings : List String) : Prop :=
  ∃ names, NamesMissing o w names ∧ warnings = if names = [] then [] else
    ["missing toolchain components: " ++ ", ".intercalate names,
      "assembly file was written to " ++ o.files.asm ++ "; assemble and link manually"]

/-- The files, the calls and the answer of a build that has a listing agree. -/
structure Truthful (o : Options) (w w' : Workplace) (text : String)
    (result : Except BuildError Artifacts) : Prop where
  listing : w'.disk.readFile o.files.asm = .ok text
  calls : w'.calls = w.calls ++ (o.stages w).map o.call
  inOrder : o.stages w <+: Stage.chain o.target
  tools : (o.stages w).map Stage.tool
    <+: if o.target.os = .darwin then ["as", "cc"] else ["as", "objcopy", "cc"]
  made : ∃ a, returned? result = some a ∧ a.asm = o.files.asm ∧ Warned o w a.warnings
    ∧ (a.object ≠ "" ↔ .assemble ∈ o.stages w ∧ w.passes .assemble)
    ∧ (a.executable ≠ "" ↔ .link ∈ o.stages w ∧ w.passes .link)
    ∧ (a.object = "" ∨ a.object = o.files.object)
    ∧ (a.executable = "" ∨ a.executable = o.files.executable)
  error : (∃ a, result = .ok a) ↔ ∀ s ∈ o.stages w, w.passes s
  blame : ∀ e, result = .error e →
    ∃ s f a, e = .stage s f a ∧ (o.stages w).getLast? = some s ∧ w.failure? s = some f

/-! ## Files -/

namespace Disk

variable {d : Disk} {p q : Place} {e : Entry}

theorem entry?_put (hp : p ≠ []) :
    entry? (d.put p e) q = if q = p then some e else d.entry? q := by
  unfold entry? put
  by_cases hq : q = []
  · simp [hq, Ne.symm hp]
  · rw [if_neg hq, if_neg hq]
    by_cases hqp : q = p
    · subst hqp
      have hnone : (d.entries.filter (·.1 != q)).find? (·.1 == q) = none := by simp
      simp [List.find?_append, hnone]
    · have hfind : (d.entries.filter (·.1 != p)).find? (·.1 == q) = d.entries.find? (·.1 == q) := by
        rw [List.find?_filter]
        congr 1
        funext x
        by_cases hx : x.1 = q <;> simp [hx, hqp]
      simp [List.find?_append, hfind, hqp, Ne.symm hqp]

theorem ne_nil_of_ne_directory (h : d.entry? p ≠ some .directory) : p ≠ [] := by
  rintro rfl
  exact h rfl

/-- A location leads through directories only, so it leads to the same place as long as these
remain. -/
theorem foldlM_follow_mono {d' : Disk}
    (h : ∀ q, d.entry? q = some .directory → d'.entry? q = some .directory) :
    ∀ {pieces : List String} {q : Place},
      pieces.foldlM d.follow q = .ok p → pieces.foldlM d'.follow q = .ok p
  | [], q, hq => hq
  | piece :: pieces, q, hq => by
    rw [List.foldlM_cons] at hq ⊢
    have hsame : d.entry? q = some .directory → d'.follow q piece = d.follow q piece := by
      intro hdir
      rw [follow, follow, hdir, h q hdir]
    have hstop : d.entry? q ≠ some .directory → ∃ cause, d.follow q piece = .error cause := by
      intro hdir
      unfold follow
      split
      · exact ⟨_, rfl⟩
      · exact ⟨_, rfl⟩
      · exact absurd ‹_› hdir
    by_cases hdir : d.entry? q = some .directory
    · rw [hsame hdir]
      cases hstep : d.follow q piece with
      | error cause =>
        rw [hstep] at hq
        cases hq
      | ok q' =>
        rw [hstep] at hq
        exact foldlM_follow_mono h (q := q') hq
    · obtain ⟨cause, hstop⟩ := hstop hdir
      rw [hstop] at hq
      cases hq

theorem place_mono {d' : Disk} {path : String} (hwork : d'.workDir = d.workDir)
    (h : ∀ q, d.entry? q = some .directory → d'.entry? q = some .directory)
    (hp : d.place path = .ok p) : d'.place path = .ok p := by
  unfold place at hp ⊢
  rw [hwork]
  split_ifs at hp ⊢ <;> exact foldlM_follow_mono h hp

theorem readFile_of_place {path text : String} (hp : d.place path = .ok p)
    (he : d.entry? p = some (.file text)) : d.readFile path = .ok text := by
  simp [readFile, find, hp, he, bind, Except.bind, pure, Except.pure]

theorem readFile_ok {path text : String} (h : d.readFile path = .ok text) :
    ∃ p, d.place path = .ok p ∧ d.entry? p = some (.file text) := by
  unfold readFile find at h
  cases hp : d.place path with
  | error cause =>
    rw [hp] at h
    cases h
  | ok p =>
    refine ⟨p, rfl, ?_⟩
    rw [hp] at h
    cases he : d.entry? p with
    | none => simp [he, bind, Except.bind, throw, throwThe, MonadExceptOf.throw] at h
    | some e => cases e <;> simp_all [bind, Except.bind, pure, Except.pure]

theorem writeFile_eq_ok {d' : Disk} {path text : String} (h : d.writeFile path text = .ok d') :
    ∃ p, d.place path = .ok p ∧ d.entry? p ≠ some .directory ∧ d' = d.put p (.file text) := by
  unfold writeFile at h
  split at h
  · cases h
  · rename_i p hp
    split at h
    · cases h
    · rename_i hdir
      cases h
      exact ⟨p, hp, hdir, rfl⟩

/-- A directory remains when something is put where there is none. -/
theorem directory_put (hp : d.entry? p ≠ some .directory) (hq : d.entry? q = some .directory) :
    entry? (d.put p e) q = some .directory := by
  have hqp : q ≠ p := by
    rintro rfl
    exact hp hq
  rw [entry?_put (ne_nil_of_ne_directory hp), if_neg hqp, hq]

theorem readFile_writeFile {d' : Disk} {path text : String} (h : d.writeFile path text = .ok d') :
    d'.readFile path = .ok text := by
  obtain ⟨p, hp, hdir, rfl⟩ := writeFile_eq_ok h
  have hfile : entry? (d.put p (.file text)) p = some (.file text) := by
    simp [entry?_put (ne_nil_of_ne_directory hdir)]
  exact readFile_of_place (place_mono (d := d) rfl (fun q => directory_put hdir) hp) hfile

end Disk

/-- No file was written, nothing was changed or removed, and no tool was run. -/
structure KeepsFiles (w w' : Workplace) : Prop where
  workDir : w'.disk.workDir = w.disk.workDir
  kept : ∀ {p e}, w.disk.entry? p = some e → w'.disk.entry? p = some e
  noFile : ∀ {p c}, w'.disk.entry? p = some (.file c) → w.disk.entry? p = some (.file c)
  tools : w'.tools = w.tools
  calls : w'.calls = w.calls

theorem KeepsFiles.refl (w : Workplace) : KeepsFiles w w := ⟨rfl, id, id, rfl, rfl⟩

theorem KeepsFiles.trans {w w' w'' : Workplace} (h : KeepsFiles w w') (h' : KeepsFiles w' w'') :
    KeepsFiles w w'' :=
  ⟨h'.workDir.trans h.workDir, h'.kept ∘ h.kept, h.noFile ∘ h'.noFile, h'.tools.trans h.tools,
    h'.calls.trans h.calls⟩

theorem KeepsFiles.readFile {w w' : Workplace} (h : KeepsFiles w w') {path text : String}
    (hread : w.disk.readFile path = .ok text) : w'.disk.readFile path = .ok text := by
  obtain ⟨p, hp, he⟩ := Disk.readFile_ok hread
  exact Disk.readFile_of_place (Disk.place_mono h.workDir (fun q => h.kept) hp) (h.kept he)

/-- A step that keeps the files wherever it is taken. -/
def Quiet {α : Type} (x : StateM Workplace α) : Prop := ∀ w, KeepsFiles w (x.run w).2

theorem quiet_pure {α : Type} (a : α) : Quiet (pure a) := fun w => .refl w

theorem Quiet.bind {α β : Type} {x : StateM Workplace α} {k : α → StateM Workplace β}
    (hx : Quiet x) (hk : ∀ a, Quiet (k a)) : Quiet (x >>= k) := fun w =>
  (hx w).trans (hk (x.run w).1 (x.run w).2)

theorem quiet_makeDir (dir : String) : Quiet (Host.makeDir dir) := by
  intro w
  change KeepsFiles w (w.update (w.disk.makeDir dir)).2
  unfold Disk.makeDir
  split
  · exact .refl w
  · rename_i p hp
    split
    · exact .refl w
    · rename_i hnone
      have hne : p ≠ [] := Disk.ne_nil_of_ne_directory (d := w.disk) (by simp [hnone])
      refine ⟨rfl, fun {q e} hq => ?_, fun {q c} hq => ?_, rfl, rfl⟩
      · have hqp : q ≠ p := by
          rintro rfl
          simp [hnone] at hq
        simpa [Workplace.update, Disk.entry?_put hne, hqp] using hq
      · by_cases hqp : q = p <;> simp_all [Workplace.update, Disk.entry?_put hne]

theorem quiet_makeAll : ∀ dirs : List String, Quiet (makeAll dirs)
  | [] => quiet_pure _
  | dir :: around => by
    have hlook : Quiet (Host.isDirectory dir) := fun w => .refl w
    refine hlook.bind fun r => ?_
    split
    · exact quiet_pure _
    · exact quiet_pure _
    · refine (quiet_makeAll around).bind fun r => ?_
      split
      · exact quiet_pure _
      · exact quiet_makeDir dir

/-! ## Stages one after the other -/

/-- What a stage adds to what was made. -/
def Stage.add (o : Options) (a : Artifacts) : Stage → Artifacts
  | .assemble => { a with object := o.files.object }
  | .rename => a
  | .link => { a with executable := o.files.executable }

/-- The answer after stages, the first failure of which ends the build. -/
def Workplace.outcome (w : Workplace) (o : Options) :
    List Stage → Artifacts → Except BuildError Artifacts
  | [], a => .ok a
  | s :: ss, a =>
    match w.failure? s with
    | none => w.outcome o ss (s.add o a)
    | some f => .error (.stage s f a)

/-- From one workplace to the next, the tools of some stages were called and nothing was written. -/
structure Ran (o : Options) (w : Workplace) (ss : List Stage) (w' : Workplace) : Prop where
  disk : w'.disk = w.disk
  tools : w'.tools = w.tools
  calls : w'.calls = w.calls ++ ss.map o.call

/-- The workplace after something was reported. -/
def Workplace.logged (w : Workplace) (e : Event) : Workplace :=
  { w with events := w.events ++ [e] }

theorem Workplace.tools_logged (w : Workplace) (e : Event) : (w.logged e).tools = w.tools := rfl

section Ran

variable {o : Options} {w w' w'' : Workplace} {s : Stage} {ss ss' : List Stage} {a : Artifacts}

theorem Ran.refl (w : Workplace) : Ran o w [] w := ⟨rfl, rfl, by simp⟩

theorem Ran.trans (h : Ran o w ss w') (h' : Ran o w' ss' w'') : Ran o w (ss ++ ss') w'' :=
  ⟨h'.disk.trans h.disk, h'.tools.trans h.tools, by rw [h'.calls, h.calls]; simp⟩

theorem failure?_congr (h : w'.tools = w.tools) : w'.failure? = w.failure? := by
  funext s
  simp only [Workplace.failure?, Workplace.tool?, h]

theorem outcome_congr (h : w'.tools = w.tools) : w'.outcome o ss a = w.outcome o ss a := by
  induction ss generalizing a with
  | nil => rfl
  | cons s ss ih => simp only [Workplace.outcome, failure?_congr h, ih]

theorem upTo_congr (h : w'.tools = w.tools) : w'.upTo ss = w.upTo ss := by
  have hpasses : w'.passes = w.passes := by
    funext s
    simp only [Workplace.passes, failure?_congr h]
  simp only [Workplace.upTo, hpasses]

theorem Workplace.upTo_cons (s : Stage) (ss : List Stage) :
    w.upTo (s :: ss) = if w.passes s then s :: w.upTo ss else [s] := by
  by_cases h : w.passes s <;> simp [upTo, h]

/-- The step runs stages up to the first that fails, and answers accordingly. -/
def Follows (o : Options) (x : StateM Workplace (Except BuildError Artifacts)) (ss : List Stage)
    (a : Artifacts) : Prop :=
  ∀ w, (∀ s ∈ ss, w.lacks s = false) →
    ∃ w', x.run w = (w.outcome o ss a, w') ∧ Ran o w (w.upTo ss) w'

theorem follows_done (a : Artifacts) : Follows o (pure (.ok a)) [] a := fun w _ =>
  ⟨w, rfl, .refl w⟩

theorem Follows.report {x : StateM Workplace (Except BuildError Artifacts)} (e : Event)
    (h : Follows o x ss a) : Follows o (Workplace.keep e >>= fun _ => x) ss a := by
  intro w hw
  obtain ⟨w', hx, hran⟩ := h (w.logged e) hw
  rw [outcome_congr (w.tools_logged e)] at hx
  rw [upTo_congr (w.tools_logged e)] at hran
  exact ⟨w', hx, hran.disk, hran.tools, hran.calls⟩

theorem run_runStage (hargs : s.args o.target o.files ≠ []) (hw : w.lacks s = false) :
    ∃ w', (runStage Workplace.keep o.target o.files s).run w
        = ((match w.failure? s with | none => .ok () | some f => .error f), w')
      ∧ Ran o w [s] w' := by
  obtain ⟨tool, htool⟩ : ∃ tool, w.tool? s.tool = some tool := by
    simpa [Workplace.lacks, Option.isSome_iff_exists] using hw
  have hrun : ∃ e, (runStage Workplace.keep o.target o.files s).run w
      = (w.logged e).runTool s.tool (s.args o.target o.files) := by
    refine ⟨.running s.text (" ".intercalate (o.call s)), ?_⟩
    simp only [runStage, List.isEmpty_iff, hargs, if_false]
    rfl
  obtain ⟨e, hrun⟩ := hrun
  have htool' : (w.logged e).tool? s.tool = some tool := htool
  rw [hrun, Workplace.runTool, htool', Workplace.failure?, htool]
  by_cases hstatus : tool.status = 0
  · simp only [hstatus, if_true]
    exact ⟨_, rfl, rfl, rfl, rfl⟩
  · simp only [hstatus, if_false]
    exact ⟨_, rfl, rfl, rfl, rfl⟩

/-- A stage, and what comes after it if it passes. -/
theorem Follows.stage {k : StateM Workplace (Except BuildError Artifacts)}
    (hargs : s.args o.target o.files ≠ []) (hk : Follows o k ss (s.add o a)) :
    Follows o (do
      match ← runStage Workplace.keep o.target o.files s with
      | .error f => return .error (.stage s f a)
      | .ok () => k) (s :: ss) a := by
  intro w hw
  obtain ⟨w₁, hrun, hran⟩ := run_runStage hargs (hw s List.mem_cons_self)
  rw [StateT.run_bind, hrun, Workplace.upTo_cons, Workplace.outcome, Workplace.passes]
  cases hf : w.failure? s with
  | some f => exact ⟨w₁, rfl, hran⟩
  | none =>
    have hlacks : w₁.lacks = w.lacks := by
      funext s
      simp only [Workplace.lacks, Workplace.tool?, hran.tools]
    obtain ⟨w', hx, hran'⟩ := hk w₁ fun s' hs' => by
      rw [hlacks]
      exact hw s' (List.mem_cons_of_mem _ hs')
    rw [outcome_congr hran.tools] at hx
    rw [upTo_congr hran.tools] at hran'
    exact ⟨w', hx, hran.trans hran'⟩

end Ran

theorem Stage.args_ne_nil {t : Target} (f : Files) {s : Stage} (h : s ∈ chain t) :
    s.args t f ≠ [] := by
  revert h
  unfold chain args
  cases t.os <;> cases s <;> simp

theorem runStage_skip {t : Target} {f : Files} {s : Stage} (h : s.args t f = []) :
    runStage Workplace.keep t f s = pure (.ok ()) := by
  simp [runStage, h]

theorem follows_linkObject (o : Options) (a : Artifacts) :
    Follows o (linkObject Workplace.keep o a) (Stage.chain o.target).tail a := by
  have hlink : Follows o (do
      Workplace.keep .linking
      match ← runStage Workplace.keep o.target o.files .link with
      | .error f => return .error (.stage .link f a)
      | .ok () =>
        Workplace.keep (.executableWritten o.files.executable)
        return .ok { a with executable := o.files.executable }) [.link] a := by
    refine .report _ (.stage (Stage.args_ne_nil _ ?_) (.report _ (follows_done _)))
    unfold Stage.chain
    split <;> simp
  by_cases hos : o.target.os = .darwin
  · have hargs : Stage.args o.target o.files .rename = [] := by simp [Stage.args, hos]
    rw [linkObject, runStage_skip hargs, pure_bind]
    have hchain : (Stage.chain o.target).tail = [.link] := by simp [Stage.chain, hos]
    rw [hchain]
    exact hlink
  · have hargs : Stage.args o.target o.files .rename ≠ [] := by
      revert hos
      unfold Stage.args
      cases o.target.os <;> simp
    have hchain : (Stage.chain o.target).tail = [.rename, .link] := by
      revert hos
      unfold Stage.chain
      cases o.target.os <;> simp
    rw [hchain]
    exact .stage hargs hlink

/-! ## What was made -/

namespace Location

theorem clean_ne_empty (path : String) : clean path ≠ "" := by
  intro h
  have hnil : cleanChars path.toList = [] := by
    simpa [clean] using congrArg String.toList h
  simp only [cleanChars, here] at hnil
  split_ifs at hnil
  contradiction

theorem join_ne_empty {dir : String} (name : String) (h : dir ≠ "") : join dir name ≠ "" := by
  rw [join, if_pos h]
  exact clean_ne_empty _

end Location

theorem Options.nonEmpty_ne_empty (text : String) {fallback : String} (h : fallback ≠ "") :
    nonEmpty text fallback ≠ "" := by
  unfold nonEmpty
  split_ifs with htext
  · exact h
  · exact htext

theorem Options.fileDir_ne_empty (o : Options) : o.fileDir ≠ "" :=
  Location.join_ne_empty _ (nonEmpty_ne_empty _ (by decide))

section Outcome

variable {o : Options} {w : Workplace} {ss : List Stage} {s : Stage} {a : Artifacts}

theorem foldl_add (o : Options) (ss : List Stage) (a : Artifacts) :
    ss.foldl (Stage.add o) a = { a with
      object := if .assemble ∈ ss then o.files.object else a.object
      executable := if .link ∈ ss then o.files.executable else a.executable } := by
  induction ss generalizing a with
  | nil => simp
  | cons s ss ih =>
    rw [List.foldl_cons, ih]
    cases s <;> simp [Stage.add]

theorem mem_upTo_and_passes : s ∈ w.upTo ss ∧ w.passes s ↔ s ∈ ss.takeWhile w.passes := by
  induction ss with
  | nil => simp [Workplace.upTo]
  | cons s' ss ih =>
    rw [Workplace.upTo_cons]
    by_cases h : w.passes s'
    · by_cases hs : s = s' <;> simp_all
    · by_cases hs : s = s' <;> simp_all

theorem upTo_isPrefix (w : Workplace) (ss : List Stage) : w.upTo ss <+: ss := by
  have happend : w.upTo ss <+: ss.takeWhile w.passes ++ ss.dropWhile w.passes :=
    (List.prefix_append_right_inj _).2 (List.take_prefix 1 _)
  rwa [List.takeWhile_append_dropWhile] at happend

theorem returned?_outcome :
    returned? (w.outcome o ss a) = some ((ss.takeWhile w.passes).foldl (Stage.add o) a) := by
  induction ss generalizing a with
  | nil => rfl
  | cons s ss ih =>
    rw [Workplace.outcome, List.takeWhile_cons, Workplace.passes]
    cases hf : w.failure? s with
    | none => exact ih
    | some f => rfl

theorem outcome_ok_iff : (∃ r, w.outcome o ss a = .ok r) ↔ ∀ s ∈ w.upTo ss, w.passes s := by
  induction ss generalizing a with
  | nil => simp [Workplace.outcome, Workplace.upTo]
  | cons s ss ih =>
    rw [Workplace.outcome, Workplace.upTo_cons]
    cases hf : w.failure? s with
    | none =>
      have hpass : w.passes s := by simp [Workplace.passes, hf]
      simpa [hpass] using ih
    | some f => simp [Workplace.passes, hf]

theorem outcome_error {e : BuildError} (h : w.outcome o ss a = .error e) :
    ∃ s f r, e = .stage s f r ∧ (w.upTo ss).getLast? = some s ∧ w.failure? s = some f := by
  induction ss generalizing a with
  | nil => cases h
  | cons s ss ih =>
    rw [Workplace.outcome] at h
    rw [Workplace.upTo_cons]
    cases hf : w.failure? s with
    | none =>
      rw [hf] at h
      obtain ⟨s', f, r, he, hlast, hf'⟩ := ih h
      refine ⟨s', f, r, he, ?_, hf'⟩
      simp [Workplace.passes, hf, List.getLast?_cons, hlast]
    | some f =>
      rw [hf] at h
      cases h
      exact ⟨s, f, a, rfl, by simp [Workplace.passes, hf], hf⟩

end Outcome

/-! ## The parts of a build -/

theorem run_missingTools (w : Workplace) (ss : List Stage) :
    (missingTools ss : StateM Workplace _).run w = ((ss.filter w.lacks).map Stage.toolText, w) := by
  induction ss with
  | nil => rfl
  | cons s ss ih =>
    have hrun : (missingTools (s :: ss) : StateM Workplace _).run w
        = (if (w.tool? s.tool).isSome then ((missingTools ss : StateM Workplace _).run w).1
            else s.toolText :: ((missingTools ss : StateM Workplace _).run w).1,
          ((missingTools ss : StateM Workplace _).run w).2) := rfl
    rw [hrun, ih]
    cases htool : w.tool? s.tool <;> simp [Workplace.lacks, htool]

theorem run_reportAll (w : Workplace) (es : List Event) :
    (reportAll Workplace.keep es).run w = ((), { w with events := w.events ++ es }) := by
  induction es generalizing w with
  | nil =>
    rw [List.append_nil]
    rfl
  | cons e es ih =>
    have hrun : (reportAll Workplace.keep (e :: es)).run w
        = (reportAll Workplace.keep es).run (w.logged e) := rfl
    rw [hrun, ih]
    simp [Workplace.logged]

theorem run_listing (w : Workplace) (t : Target) (p : Option Program) :
    ∃ es, (listing Workplace.keep t p).run w = (generate t p, { w with events := es }) := by
  unfold listing generate
  cases (Lowering.Gen.program t p).run (.start t) with
  | ok text s =>
    simp only [StateT.run_bind, run_reportAll]
    exact ⟨_, rfl⟩
  | error e s =>
    simp only [StateT.run_bind, run_reportAll]
    exact ⟨_, rfl⟩

theorem chain_eq_cons (t : Target) : Stage.chain t = .assemble :: (Stage.chain t).tail := by
  unfold Stage.chain
  cases t.os <;> rfl

/-- All systems but one take three stages. -/
theorem Stage.mem_chain {t : Target} {s : Stage} :
    s ∈ chain t ↔ (s = .rename → t.os ≠ .darwin) := by
  unfold chain
  cases t.os <;> cases s <;> simp

theorem Stage.mem_needed {t : Target} {s : Stage} : s ∈ needed t ↔ s ∈ chain t := by
  unfold chain needed
  cases t.os <;> simp [or_comm]

/-- The stages whose tools are missing, in the order in which these are looked for. -/
def Options.missing (o : Options) (w : Workplace) : List Stage :=
  (Stage.needed o.target).filter w.lacks

theorem Options.missing_eq_nil_iff {o : Options} {w : Workplace} :
    o.missing w = [] ↔ o.lacks w = false := by
  rw [missing, lacks, List.filter_eq_nil_iff, List.any_eq_false]
  simp only [Stage.mem_needed]

/-- The warnings of a build; without a tool to run, none is looked for. -/
def Options.warnings (o : Options) (w : Workplace) : List String :=
  if o.asmOnly ∨ o.missing w = [] then []
  else missingWarnings ((o.missing w).map Stage.toolText) o.files.asm

theorem Stage.toolText_injective : Function.Injective toolText := by
  intro s s' h
  cases s <;> cases s' <;> simp_all [toolText]

theorem namesMissing_nil {o : Options} (w : Workplace) (h : o.asmOnly) : NamesMissing o w [] := by
  constructor <;> simp [h]

/-- What is found missing is what is needed and not there. -/
theorem namesMissing {o : Options} (w : Workplace) (h : o.asmOnly = false) :
    NamesMissing o w ((o.missing w).map Stage.toolText) := by
  have hmem : ∀ s : Stage, s.toolText ∈ (o.missing w).map Stage.toolText
      ↔ (s = .rename → o.target.os ≠ .darwin) ∧ w.tool? s.tool = none := by
    intro s
    rw [List.mem_map_of_injective Stage.toolText_injective, Options.missing, List.mem_filter,
      Stage.mem_needed, Stage.mem_chain, Workplace.lacks, Option.isNone_iff_eq_none]
  constructor
  case ordered =>
    refine (List.filter_sublist.map _).trans ?_
    unfold Stage.needed
    cases o.target.os <;> simp [Stage.toolText]
  case assembler => exact (hmem .assemble).trans (by simp [h, Stage.tool])
  case linker => exact (hmem .link).trans (by simp [h, Stage.tool])
  case renamer => exact (hmem .rename).trans (by simp [h, Stage.tool])

theorem warned (o : Options) (w : Workplace) : Warned o w (o.warnings w) := by
  unfold Options.warnings
  cases hasm : o.asmOnly with
  | true => exact ⟨[], namesMissing_nil w hasm, by simp⟩
  | false =>
    refine ⟨_, namesMissing w hasm, ?_⟩
    by_cases hmissing : o.missing w = []
    · simp [hmissing]
    · simp [hmissing, missingWarnings]

/-- The stages that would run if all of them passed. -/
def Options.plan (o : Options) (w : Workplace) : List Stage :=
  if o.asmOnly then []
  else if o.lacks w then []
  else if o.skipLink then [.assemble]
  else Stage.chain o.target

theorem Options.stages_eq (o : Options) (w : Workplace) : o.stages w = w.upTo (o.plan w) := by
  have hone : w.upTo [.assemble] = [.assemble] := by
    rw [Workplace.upTo_cons]
    split_ifs <;> rfl
  unfold stages plan
  split_ifs
  · rfl
  · rfl
  · exact hone.symm
  · rfl

theorem Options.plan_isPrefix (o : Options) (w : Workplace) :
    o.plan w <+: Stage.chain o.target := by
  unfold plan
  split_ifs
  · exact List.nil_prefix
  · exact List.nil_prefix
  · rw [chain_eq_cons]
    exact ⟨(Stage.chain o.target).tail, rfl⟩
  · exact List.prefix_rfl

theorem Options.stages_isPrefix (o : Options) (w : Workplace) :
    o.stages w <+: Stage.chain o.target := by
  rw [o.stages_eq]
  exact (upTo_isPrefix w _).trans (o.plan_isPrefix w)

theorem Stage.map_tool_chain (t : Target) : (chain t).map tool
    = if t.os = .darwin then ["as", "cc"] else ["as", "objcopy", "cc"] := by
  unfold chain
  cases t.os <;> rfl

/-- The part of `assembleAndLink` that runs when no tool is missing. -/
def assembleFound (o : Options) (a : Artifacts) :
    StateM Workplace (Except BuildError Artifacts) := do
  Workplace.keep .assembling
  match ← runStage Workplace.keep o.target o.files .assemble with
  | .error f => return .error (.stage .assemble f a)
  | .ok () =>
    let made := { a with object := o.files.object }
    if o.skipLink then return .ok made else linkObject Workplace.keep o made

theorem follows_assembleFound (o : Options) (a : Artifacts) :
    Follows o (assembleFound o a) (if o.skipLink then [.assemble] else Stage.chain o.target) a := by
  have hargs : Stage.args o.target o.files .assemble ≠ [] := by
    refine Stage.args_ne_nil _ ?_
    rw [chain_eq_cons]
    exact List.mem_cons_self
  refine .report _ ?_
  by_cases hskip : o.skipLink
  · simp only [hskip, if_true]
    exact .stage hargs (follows_done _)
  · rw [if_neg hskip, chain_eq_cons]
    simp only [hskip]
    exact .stage hargs (follows_linkObject o _)

theorem run_assembleAndLink (o : Options) (a : Artifacts) (w : Workplace) :
    (assembleAndLink Workplace.keep o a).run w =
      if o.missing w ≠ [] then
        (.ok { a with warnings := missingWarnings ((o.missing w).map Stage.toolText) a.asm },
          w.logged (.toolsMissing ((o.missing w).map Stage.toolText)))
      else (assembleFound o a).run w := by
  rw [assembleAndLink, StateT.run_bind, run_missingTools]
  change StateT.run (if !((o.missing w).map Stage.toolText).isEmpty then _ else _) w = _
  by_cases h : o.missing w = []
  · simp only [h]
    rfl
  · simp [h]
    rfl

/-- What a build does after it has written its listing. -/
theorem run_rest (o : Options) (w : Workplace) :
    ∃ w', (if o.asmOnly then return .ok { asm := o.files.asm }
          else assembleAndLink Workplace.keep o { asm := o.files.asm }).run w
        = (w.outcome o (o.plan w) { asm := o.files.asm, warnings := o.warnings w }, w')
      ∧ Ran o w (o.stages w) w' := by
  rw [Options.stages_eq]
  by_cases hasm : o.asmOnly
  · simp only [Options.plan, Options.warnings, hasm, true_or, if_true]
    exact ⟨w, rfl, .refl w⟩
  by_cases hmissing : o.missing w = []
  · have hlacks := Options.missing_eq_nil_iff.1 hmissing
    have hplan : o.plan w = if o.skipLink then [.assemble] else Stage.chain o.target := by
      simp [Options.plan, hasm, hlacks]
    have hfound : ∀ s ∈ o.plan w, w.lacks s = false := fun s hs => by
      have hany := List.any_eq_false.1 hlacks s ((o.plan_isPrefix w).subset hs)
      simpa using hany
    have hfollows := follows_assembleFound o { asm := o.files.asm }
    rw [← hplan] at hfollows
    simpa [Options.warnings, hasm, hmissing, run_assembleAndLink] using hfollows w hfound
  · have hlacks : o.lacks w := by simpa [Options.missing_eq_nil_iff] using hmissing
    simp only [Options.plan, Options.warnings, run_assembleAndLink, hasm, hmissing, hlacks, ne_eq,
      Bool.false_eq_true, not_false_iff, or_self, if_true, if_false]
    exact ⟨_, rfl, rfl, rfl, by simp [Workplace.upTo, Workplace.logged]⟩

/-! ## Builds -/

theorem truthful_of_ran {o : Options} {w w' : Workplace} {text : String}
    (htext : w.disk.readFile o.files.asm = .ok text) (hran : Ran o w (o.stages w) w') :
    Truthful o w w' text
      (w.outcome o (o.plan w) { asm := o.files.asm, warnings := o.warnings w }) where
  listing := by rw [hran.disk, htext]
  calls := hran.calls
  inOrder := o.stages_isPrefix w
  tools := by
    rw [← Stage.map_tool_chain]
    exact (o.stages_isPrefix w).map Stage.tool
  made := by
    have hobject : o.files.object ≠ "" := Location.join_ne_empty _ o.fileDir_ne_empty
    have hexecutable : o.files.executable ≠ "" := Location.join_ne_empty _ o.fileDir_ne_empty
    rw [o.stages_eq, mem_upTo_and_passes, mem_upTo_and_passes]
    refine ⟨_, returned?_outcome, ?_⟩
    rw [foldl_add]
    refine ⟨rfl, warned o w, ?_, ?_, ?_, ?_⟩ <;> dsimp only <;> split_ifs <;> simp_all
  error := by
    rw [o.stages_eq]
    exact outcome_ok_iff
  blame e he := by
    rw [o.stages_eq]
    exact outcome_error he

/-- There are no warnings if all tools are there that the target needs. -/
theorem Warned.eq_nil {o : Options} {w : Workplace} {warnings : List String}
    (h : Warned o w warnings) (has : w.tool? "as" ≠ none) (hcc : w.tool? "cc" ≠ none)
    (hcopy : o.target.os = .darwin ∨ w.tool? "objcopy" ≠ none) : warnings = [] := by
  obtain ⟨names, hnames, rfl⟩ := h
  refine if_pos (List.eq_nil_iff_forall_not_mem.2 fun name hname => ?_)
  have hmem := hnames.ordered.subset hname
  simp only [List.mem_cons, List.not_mem_nil, or_false] at hmem
  rcases hmem with rfl | rfl | rfl
  · exact has (hnames.assembler.1 hname).2
  · exact hcc (hnames.linker.1 hname).2
  · obtain ⟨-, hos, hnone⟩ := hnames.renamer.1 hname
    exact hcopy.elim hos fun hsome => hsome hnone

theorem Warned.congr {o : Options} {w w₁ : Workplace} {warnings : List String}
    (h : Warned o w₁ warnings) (htools : w₁.tools = w.tools) : Warned o w warnings := by
  obtain ⟨names, hnames, hwarnings⟩ := h
  have htool : w₁.tool? = w.tool? := by
    funext name
    simp only [Workplace.tool?, htools]
  refine ⟨names, ⟨hnames.ordered, ?_, ?_, ?_⟩, hwarnings⟩ <;> rw [← htool]
  · exact hnames.assembler
  · exact hnames.linker
  · exact hnames.renamer

/-- Only the tools and the calls before a build matter. -/
theorem Truthful.congr {o : Options} {w w₁ w' : Workplace} {text : String}
    {result : Except BuildError Artifacts} (h : Truthful o w₁ w' text result)
    (htools : w₁.tools = w.tools) (hcalls : w₁.calls = w.calls) : Truthful o w w' text result := by
  obtain ⟨a, hreturned, hasm, hwarned, hmade⟩ := h.made
  have hwarned := hwarned.congr htools
  obtain ⟨d, T, C, out, err, es⟩ := w
  obtain ⟨d₁, T₁, C₁, out₁, err₁, es₁⟩ := w₁
  subst htools hcalls
  exact ⟨h.listing, h.calls, h.inOrder, h.tools, ⟨a, hreturned, hasm, hwarned, hmade⟩, h.error,
    h.blame⟩

theorem keepsFiles_of_run_makeDirs {w w₁ : Workplace} {dir : String} {r : Except FileError Unit}
    (h : (makeDirs dir : StateM Workplace _).run w = (r, w₁)) : KeepsFiles w w₁ := by
  have hquiet := quiet_makeAll (Location.lineage dir) w
  rw [makeDirs] at h
  rwa [h] at hquiet

/-- What a build does once it knows whether there is a listing. -/
def finish (o : Options) :
    Except Lowering.GenError String → StateM Workplace (Except BuildError Artifacts)
  | .error e => return .error (.generation e)
  | .ok text => do
    match ← Host.writeFile o.files.asm text with
    | .error e => return .error (.assembly e)
    | .ok () =>
      Workplace.keep (.assemblyWritten o.files.asm)
      if o.asmOnly then return .ok { asm := o.files.asm }
      else assembleAndLink Workplace.keep o { asm := o.files.asm }

theorem build_eq (o : Options) (p : Option Program) : build Workplace.keep o p = (do
    match ← makeDirs o.fileDir with
    | .error e => return .error (.directory o.fileDir e)
    | .ok () =>
      Workplace.keep (.generatingAssembly o.target.os.text)
      listing Workplace.keep o.target p >>= finish o) := rfl

theorem run_build {o : Options} {w w₁ : Workplace} (p : Option Program)
    (hdirs : (makeDirs o.fileDir : StateM Workplace _).run w = (.ok (), w₁)) :
    ∃ es, (build Workplace.keep o p).run w
      = (finish o (generate o.target p)).run { w₁ with events := es } := by
  obtain ⟨es, hlisting⟩ := run_listing (w₁.logged (.generatingAssembly o.target.os.text)) o.target p
  have hrun : (build Workplace.keep o p).run w
      = ((listing Workplace.keep o.target p) >>= finish o).run
          (w₁.logged (.generatingAssembly o.target.os.text)) := by
    rw [build_eq, StateT.run_bind, hdirs]
    rfl
  rw [hrun, StateT.run_bind, hlisting]
  exact ⟨es, rfl⟩

/-- The workplace after the listing was written. -/
def Workplace.withListing (w : Workplace) (o : Options) (d : Disk) : Workplace :=
  Workplace.logged { w with disk := d } (.assemblyWritten o.files.asm)

theorem run_writeFile (path text : String) (w : Workplace) :
    (Host.writeFile path text : StateM Workplace _).run w
      = w.update (w.disk.writeFile path text) := rfl

theorem run_written {o : Options} {w : Workplace} {d : Disk} {text : String}
    (hwrite : w.disk.writeFile o.files.asm text = .ok d) :
    ∃ w', (finish o (.ok text)).run w
        = ((w.withListing o d).outcome o (o.plan (w.withListing o d))
            { asm := o.files.asm, warnings := o.warnings (w.withListing o d) }, w')
      ∧ Ran o (w.withListing o d) (o.stages (w.withListing o d)) w' := by
  have hupdate : (Host.writeFile o.files.asm text : StateM Workplace _).run w
      = (.ok (), { w with disk := d }) := by
    rw [run_writeFile, hwrite, Workplace.update]
  obtain ⟨w', hrest, hran⟩ := run_rest o (w.withListing o d)
  refine ⟨w', ?_, hran⟩
  rw [← hrest, finish, StateT.run_bind, hupdate]
  rfl

theorem run_finish {o : Options} {w : Workplace} {d : Disk} {text : String}
    (hwrite : w.disk.writeFile o.files.asm text = .ok d) :
    ∃ w₁ w' result, (finish o (.ok text)).run w = (result, w') ∧ w₁.tools = w.tools
      ∧ w₁.calls = w.calls ∧ Truthful o w₁ w' text result := by
  obtain ⟨w', hrun, hran⟩ := run_written hwrite
  exact ⟨w.withListing o d, w', _, hrun, rfl, rfl,
    truthful_of_ran (Disk.readFile_writeFile hwrite) hran⟩

/-- A build whose files can be written does all it says and says all it does. -/
theorem build_truthful {o : Options} {p : Option Program} {w w' : Workplace}
    {result : Except BuildError Artifacts} (hw : w.Writable o)
    (h : (build Workplace.keep o p).run w = (result, w')) :
    match generate o.target p with
    | .error e => Refused w w' e result
    | .ok text => Truthful o w w' text result := by
  obtain ⟨w₁, hdirs, hwrite⟩ := hw
  have hkeeps := keepsFiles_of_run_makeDirs hdirs
  obtain ⟨es, hrun⟩ := run_build p hdirs
  rw [h] at hrun
  cases hgen : generate o.target p with
  | error e =>
    rw [hgen] at hrun
    cases hrun
    exact ⟨rfl, rfl, hkeeps.noFile, hkeeps.readFile, hkeeps.calls⟩
  | ok text =>
    rw [hgen] at hrun
    obtain ⟨d, hd⟩ := hwrite text
    obtain ⟨w₂, w₃, result', hfinish, htools, hcalls, htruthful⟩ :=
      run_finish (w := { w₁ with events := es }) hd
    rw [hfinish] at hrun
    cases hrun
    exact htruthful.congr (htools.trans hkeeps.tools) (hcalls.trans hkeeps.calls)

/-- An assembler that works and a renamer that does not. -/
def brokenRenamer : Workplace where
  disk := .ofWorkDir ["work"]
  tools := [("as", {}), ("objcopy", { status := 1 }), ("cc", {})]

def madeDirs : Except FileError Unit × Workplace :=
  (makeDirs "build/linux_x86_64" : StateM Workplace _).run brokenRenamer

theorem writable_brokenRenamer : brokenRenamer.Writable {} := by
  have hdir : Options.fileDir {} = "build/linux_x86_64" := by decide +kernel
  have hasm : (Options.files {}).asm = "build/linux_x86_64/output.s" := by decide +kernel
  have hok : madeDirs.1 = .ok () := by decide +kernel
  have hplace : madeDirs.2.disk.place "build/linux_x86_64/output.s"
      = .ok ["work", "build", "linux_x86_64", "output.s"] := by decide +kernel
  have hnone : madeDirs.2.disk.entry? ["work", "build", "linux_x86_64", "output.s"] = none := by
    decide +kernel
  rw [Workplace.Writable, hdir, hasm]
  refine ⟨madeDirs.2, Prod.ext hok ?_, fun text => ?_⟩
  · exact Eq.refl madeDirs.2
  rw [Disk.writeFile, hplace]
  dsimp only
  rw [hnone]
  exact ⟨_, rfl⟩

def emptyProgram : Program := ⟨default, some ⟨default, []⟩⟩

/-- The linker does not run after the renamer has failed. -/
theorem build_truthful_brokenRenamer : ∃ text result w',
    generate .host (some emptyProgram) = .ok text
    ∧ (build Workplace.keep {} (some emptyProgram)).run brokenRenamer = (result, w')
    ∧ w'.disk.readFile "build/linux_x86_64/output.s" = .ok text
    ∧ w'.calls.map (·.head?) = [some "as", some "objcopy"]
    ∧ (¬ ∃ a, result = .ok a)
    ∧ ∃ a, returned? result = some a ∧ a.object ≠ "" ∧ a.executable = "" ∧ a.warnings = [] := by
  have hasm : (Options.files {}).asm = "build/linux_x86_64/output.s" := by decide +kernel
  have hstages : Options.stages {} brokenRenamer = [.assemble, .rename] := by decide +kernel
  have hok : (generate .host (some emptyProgram)).toBool := by decide +kernel
  generalize hrun : (build Workplace.keep {} (some emptyProgram)).run brokenRenamer = out
  obtain ⟨result, w'⟩ := out
  have hbuild := build_truthful writable_brokenRenamer hrun
  cases hgen : generate .host (some emptyProgram) with
  | error e =>
    rw [hgen] at hok
    cases hok
  | ok text =>
    rw [hgen] at hbuild
    obtain ⟨a, hreturned, -, hwarned, hobject, hexecutable, -⟩ := hbuild.made
    refine ⟨text, result, w', rfl, rfl, ?_, ?_, ?_, a, hreturned, ?_, ?_, ?_⟩
    · rw [← hasm]
      exact hbuild.listing
    · rw [hbuild.calls, hstages]
      rfl
    · rw [hbuild.error, hstages]
      decide
    · rw [hobject, hstages]
      decide
    · rw [← not_ne_iff, hexecutable, hstages]
      decide
    · exact hwarned.eq_nil (by decide) (by decide) (Or.inr (by decide))

end WhileAsm.Build
