/-!
# Switches

A `Switch` is an option of the command line: it is spelled as a long name behind two dashes, and
some switches have a short letter behind one dash as well. `Switch.all` lists them in the order in
which the help shows them. A name has to be spelled in full (`Switch.findLong`).
-/

namespace VectorUnit

namespace CommandLine

/-- What a value on the command line is for. -/
inductive Setting where
  | matchMode
  | blockLength
  | arenaKib
  | headroomKib
  | kind
  | other
  | start
  | budget
  | iterations
  | mode
  | resumeFrom
  | keepIn
deriving DecidableEq, Repr

/-- What a switch does. -/
inductive Action where
  /-- It gives a value. -/
  | assign (setting : Setting)
  /-- It makes pairs that no operation names do nothing. -/
  | ignoreUnknown
  /-- It asks for help. -/
  | help
  /-- It asks for the version. -/
  | version
deriving DecidableEq, Repr

/-- An option of the command line. -/
structure Switch where
  action : Action
  short : Option Char
  long : String
  /-- Another long name. -/
  synonym : Option String
  /-- The value used when nothing is said. -/
  standard : Option String
  description : String
deriving DecidableEq, Repr

namespace Switch

/-- Every switch. -/
def all : List Switch := [
  ⟨.assign .matchMode, none, "compare", none, some "partial",
    "How candidate programs are compared against live microcode (partial, whole)"⟩,
  ⟨.assign .blockLength, none, "block-len", some "bl", some "1024",
    "Maximum number of instruction pairs per block"⟩,
  ⟨.assign .arenaKib, none, "code-cache-kib", none, some "16384",
    "Size of the code region, in KiB"⟩,
  ⟨.assign .headroomKib, none, "cache-reserve-kib", none, some "256",
    "Flush the cache when fewer than this many KiB are left in the code region"⟩,
  ⟨.ignoreUnknown, none, "ignore-unimplemented-inst", none, none,
    "Whether to compile unimplemented instructions as no-ops right away"⟩,
  ⟨.assign .kind, none, "variant", none, some "vu1",
    "Unit to run the image on (vu0, vu1)"⟩,
  ⟨.assign .other, none, "other", none, none,
    "Path to a second image to run on the other unit, concurrently"⟩,
  ⟨.assign .start, some 's', "start", none, some "0",
    "Where execution starts, in bytes"⟩,
  ⟨.assign .budget, some 'b', "budget", none, some "10000",
    "Cycle budget of each execution"⟩,
  ⟨.assign .iterations, some 'n', "iterations", none, some "1",
    "How many times to execute"⟩,
  ⟨.assign .mode, none, "mode", none, some "threaded",
    "Whether to run units on worker threads or on the main thread (threaded, instant)"⟩,
  ⟨.assign .resumeFrom, none, "load-state", none, none,
    "Path to a save state to load before running"⟩,
  ⟨.assign .keepIn, none, "save-state", none, none,
    "Path to write a save state to after running"⟩,
  ⟨.help, some 'h', "help", none, none, "Print help"⟩,
  ⟨.version, some 'V', "version", none, none, "Print version"⟩]

/-- The switch with a long name. -/
def findLong (name : String) : Option Switch :=
  all.find? fun s => s.long == name || s.synonym == some name

/-- The switch with a short letter. -/
def findShort (letter : Char) : Option Switch :=
  all.find? fun s => s.short == some letter

/-- The name of the value of a switch in the help. -/
def placeholder (s : Switch) : String :=
  String.ofList (s.long.toList.map fun c => if c = '-' then '_' else c.toUpper)

/-- The switch as the help spells it. -/
def spelling (s : Switch) : String :=
  match s.action with
  | .assign _ => s!"--{s.long} <{s.placeholder}>"
  | _ => s!"--{s.long}"

end Switch

end CommandLine

end VectorUnit
