import WhileAsm.Text.Quoted

/-!
# Flags

The arguments of the command line: flags, then one program file. A flag starts with one or two
dashes; a switch may have a truth value after an equals sign, and a flag with a text takes it from
there or from the next argument. The first argument that is no flag, or two dashes alone, ends the
flags.
-/

namespace WhileAsm.Command

structure Flags where
  /-- The base name of the output files; empty for that of the program file. -/
  output : String := ""
  buildDir : String := "build"
  asmOnly : Bool := false
  skipLink : Bool := false
  verbose : Bool := false
  dump : Bool := false
  deriving DecidableEq, Repr, Inhabited

/-- Why arguments cannot be read. -/
inductive FlagError where
  | badSyntax (arg : String)
  | undefined (name : String)
  | noValue (name : String)
  | badSwitch (name value : String)
  /-- The arguments ask how the command is used. -/
  | help
  deriving DecidableEq, Repr, Inhabited

def usage : String := "\n".intercalate [
  "Iki compiler v0.1.0",
  "Usage: iki [flags] <program.yaml|program.json>",
  "  -S\tstop after writing the assembly file",
  "  -build string",
  "    \tdirectory for build artifacts (default \"build\")",
  "  -c\tassemble but do not link",
  "  -dump-ast",
  "    \tdump the loaded AST structure to stderr",
  "  -o string",
  "    \tbase name of the output files (default: input file name)",
  "  -v\tlog every pipeline step",
  ""]

/-- What is said about arguments that cannot be read; the usage always follows. -/
def FlagError.message : FlagError → String
  | .badSyntax arg => "bad flag syntax: " ++ arg ++ "\n" ++ usage
  | .undefined name => "flag provided but not defined: -" ++ name ++ "\n" ++ usage
  | .noValue name => "flag needs an argument: -" ++ name ++ "\n" ++ usage
  | .badSwitch name value =>
    "invalid boolean value " ++ Text.quote value ++ " for -" ++ name ++ ": parse error\n" ++ usage
  | .help => usage

def FlagError.exitCode : FlagError → Nat
  | .help => 0
  | _ => 2

/-- The truth value that a text stands for. -/
def switch? (text : String) : Option Bool :=
  if ["1", "t", "T", "true", "TRUE", "True"].contains text then some true
  else if ["0", "f", "F", "false", "FALSE", "False"].contains text then some false
  else none

/-- What a flag does. -/
inductive Setter where
  | switch (set : Bool → Flags → Flags)
  | text (set : String → Flags → Flags)

def setter? : String → Option Setter
  | "S" => some (.switch fun b f => { f with asmOnly := b })
  | "c" => some (.switch fun b f => { f with skipLink := b })
  | "v" => some (.switch fun b f => { f with verbose := b })
  | "dump-ast" => some (.switch fun b f => { f with dump := b })
  | "o" => some (.text fun s f => { f with output := s })
  | "build" => some (.text fun s f => { f with buildDir := s })
  | _ => none

/-- One argument: the end of the flags, or a flag with the value after its equals sign. -/
inductive Arg where
  | operand
  | endOfFlags
  | flag (name : String) (value : Option String)
  | malformed
  deriving DecidableEq, Repr, Inhabited

/-- The name of a flag and the value after the first equals sign. -/
def splitFlag (text : List Char) : Arg :=
  if text.head?.any fun c => c == '-' || c == '=' then .malformed
  else
    let name := text.takeWhile (· ≠ '=')
    match text.drop name.length with
    | _ :: value => .flag (String.ofList name) (some (String.ofList value))
    | [] => .flag (String.ofList name) none

def readArg (arg : String) : Arg :=
  match arg.toList with
  | ['-', '-'] => .endOfFlags
  | '-' :: '-' :: rest => splitFlag rest
  | '-' :: c :: rest => splitFlag (c :: rest)
  | _ => .operand

/-- Reads flags from the front of the arguments; the rest are operands. -/
def readFlags (f : Flags) : List String → Except FlagError (Flags × List String)
  | [] => .ok (f, [])
  | arg :: rest =>
    match readArg arg with
    | .operand => .ok (f, arg :: rest)
    | .endOfFlags => .ok (f, rest)
    | .malformed => .error (.badSyntax arg)
    | .flag name value =>
      match setter? name, value, rest with
      | none, _, _ =>
        .error (if name = "help" ∨ name = "h" then .help else .undefined name)
      | some (.switch set), none, rest => readFlags (set true f) rest
      | some (.switch set), some v, rest =>
        match switch? v with
        | some b => readFlags (set b f) rest
        | none => .error (.badSwitch name v)
      | some (.text set), some v, rest => readFlags (set v f) rest
      | some (.text set), none, v :: rest => readFlags (set v f) rest
      | some (.text _), none, [] => .error (.noValue name)

end WhileAsm.Command
