/-!
# Events

What a run reports about its steps. An event has a level, a message and named values; details of a
run are of level `debug`, and only an incomplete set of tools is worth a warning.
-/

namespace WhileAsm.Journal

inductive Level where
  | debug
  | warn
  deriving DecidableEq, Repr, Inhabited

def Level.text : Level → String
  | .debug => "DEBUG"
  | .warn => "WARN"

inductive Event where
  | loading (path : String)
  | loaded (outline : String)
  | generatingAssembly (os : String)
  | generating
  /-- A register has got a new holder. -/
  | bound (register : String)
  /-- A value has left a register for another one. -/
  | relocated (source target : String)
  | freed (count : Nat)
  /-- A variable has got its storage cell. -/
  | named (name storage : String)
  | generated (lines cells labels : Nat)
  | assemblyWritten (path : String)
  | toolsMissing (tools : List String)
  | assembling
  | running (stage command : String)
  | linking
  | executableWritten (path : String)
  | exiting
  deriving DecidableEq, Repr, Inhabited

namespace Event

def level : Event → Level
  | .toolsMissing _ => .warn
  | _ => .debug

def message : Event → String
  | .loading _ => "loading program"
  | .loaded _ => "loaded program"
  | .generatingAssembly _ => "generating assembly"
  | .generating => "generating program"
  | .bound _ => "bound register"
  | .relocated _ _ => "relocated register"
  | .freed _ => "freed registers"
  | .named _ _ => "named variable"
  | .generated _ _ _ => "generated program"
  | .assemblyWritten _ => "assembly written"
  | .toolsMissing _ => "toolchain incomplete"
  | .assembling => "assembling"
  | .running _ _ => "toolchain"
  | .linking => "linking"
  | .executableWritten _ => "executable written"
  | .exiting => "iki exiting"

/-- The named values of an event, in the order in which they are shown. -/
def attributes : Event → List (String × String)
  | .loading path => [("path", path)]
  | .loaded outline => [("ast", "\n" ++ outline)]
  | .generatingAssembly os => [("os", os)]
  | .generating => []
  | .bound r => [("register", r)]
  | .relocated s t => [("from", s), ("to", t)]
  | .freed n => [("count", toString n)]
  | .named v s => [("variable", v), ("storage", s)]
  | .generated n v l =>
    [("lines", toString n), ("variables", toString v), ("labels", toString l)]
  | .assemblyWritten path => [("path", path)]
  | .toolsMissing tools => [("missing", "[" ++ " ".intercalate tools ++ "]")]
  | .assembling => []
  | .running stage command => [("stage", stage), ("cmd", command)]
  | .linking => []
  | .executableWritten path => [("path", path)]
  | .exiting => []

end Event

end WhileAsm.Journal
