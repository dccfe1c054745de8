import VectorUnit.Runner
import VectorUnit.CommandLine.Switch
import VectorUnit.Text.Decimal

/-!
# Arguments of the command line

`Arguments.parse` reads the words of the command line from left to right. A word that begins with
a dash is a switch, apart from a single dash; any other word is the value of the switch before it,
or else the path of the image. A value may also follow its switch in the same word: behind an equals
sign, or, for a short letter, at once. Behind the word `--` all words are paths.

The first word that cannot be read ends the reading, and so does the first one that asks for help or
for the version (`Interruption`). No switch may be given twice.
-/

namespace VectorUnit

namespace CommandLine

/-- What the command line says. -/
structure Arguments where
  matchMode : MatchMode
  blockLength : Nat
  arenaKib : Nat
  headroomKib : Nat
  ignoresUnknown : Bool
  /-- The path of the image to load. -/
  image : Option String
  kind : UnitKind
  /-- The path of the image for the other unit. -/
  other : Option String
  start : UInt32
  budget : UInt32
  iterations : Nat
  mode : Runner.Mode
  /-- The path of the save state to load. -/
  resumeFrom : Option String
  /-- The path of the save state to write. -/
  keepIn : Option String
deriving DecidableEq, Repr

namespace Arguments

/-- What the command line says without a word. -/
def standard : Arguments where
  matchMode := .byExcerpts
  blockLength := 1024
  arenaKib := 16384
  headroomKib := 256
  ignoresUnknown := false
  image := none
  kind := .vu1
  other := none
  start := 0
  budget := 10000
  iterations := 1
  mode := .threaded
  resumeFrom := none
  keepIn := none

/-- The configuration of the unit of a kind. Sizes in bytes are counted modulo 2^64. -/
def config (a : Arguments) (kind : UnitKind) : Config where
  kind := kind
  matchMode := a.matchMode
  maxBlockLength := a.blockLength
  arenaSize := 1024 * a.arenaKib % UInt64.size
  headroom := 1024 * a.headroomKib % UInt64.size
  ignoresUnknown := a.ignoresUnknown

/-- The path that a word gives: any text but the empty one. -/
def path? (text : String) : Option String :=
  if text.isEmpty then none else some text

/-- The number of 32 bits that a word gives. -/
def word? (text : String) : Option UInt32 :=
  (Decimal.nonnegative? UInt32.size text).map UInt32.ofNat

/-- The size that a word gives. -/
def size? (text : String) : Option Nat :=
  Decimal.unsigned? UInt64.size text

/-- The arguments with a value set, if the text gives a value of the kind. -/
def assign (a : Arguments) (setting : Setting) (text : String) : Option Arguments :=
  match setting with
  | .matchMode => (MatchMode.ofText text).toOption.map fun m => { a with matchMode := m }
  | .blockLength => (word? text).map fun n => { a with blockLength := n.toNat }
  | .arenaKib => (size? text).map fun n => { a with arenaKib := n }
  | .headroomKib => (size? text).map fun n => { a with headroomKib := n }
  | .kind => (UnitKind.ofText text).toOption.map fun v => { a with kind := v }
  | .other => (path? text).map fun p => { a with other := some p }
  | .start => (word? text).map fun n => { a with start := n }
  | .budget => (word? text).map fun n => { a with budget := n }
  | .iterations => (word? text).map fun n => { a with iterations := n.toNat }
  | .mode => (Runner.Mode.ofText text).toOption.map fun m => { a with mode := m }
  | .resumeFrom => (path? text).map fun p => { a with resumeFrom := some p }
  | .keepIn => (path? text).map fun p => { a with keepIn := some p }

end Arguments

/-! ### What ends the reading -/

/-- Why a command line cannot be read. -/
inductive UsageError where
  | unexpectedArgument (text : String)
  | missingValue (s : Switch)
  | invalidValue (s : Switch) (text : String)
  | unexpectedValue (s : Switch) (text : String)
  | givenTwice (s : Switch)
  | emptyPath
deriving DecidableEq, Repr

/-- The text of the error. -/
def UsageError.message : UsageError → String
  | unexpectedArgument text => s!"unexpected argument '{text}' found"
  | missingValue s => s!"a value is required for '{s.spelling}' but none was supplied"
  | invalidValue s text => s!"invalid value '{text}' for '{s.spelling}'"
  | unexpectedValue s text => s!"unexpected value '{text}' for '{s.spelling}' found"
  | givenTwice s => s!"the argument '{s.spelling}' cannot be used multiple times"
  | emptyPath => "a value is required for '[IMAGE]' but none was supplied"

/-- How the help was asked for. -/
inductive HelpForm where
  /-- With the short letter. -/
  | summary
  /-- With the long name. -/
  | full
deriving DecidableEq, Repr

/-- What ends the reading of a command line before a unit runs. -/
inductive Interruption where
  | usage (error : UsageError)
  | help (form : HelpForm)
  | version
deriving DecidableEq, Repr

/-! ### Reading -/

/-- What has been read of a command line. -/
structure Progress where
  arguments : Arguments
  /-- The switches that were given. -/
  given : List Switch
  /-- The switch whose value comes next. -/
  awaiting : Option Switch
  /-- All words from here on are paths. -/
  onlyPaths : Bool
deriving DecidableEq, Repr

/-- A step in reading a command line. -/
abbrev Reading := Except Interruption Progress

namespace Progress

/-- Nothing has been read. -/
def start : Progress :=
  ⟨.standard, [], none, false⟩

/-- A word that cannot be read. -/
def refuse (error : UsageError) : Reading :=
  .error (.usage error)

/-- Notes that a switch was given. -/
def give (p : Progress) (s : Switch) : Reading :=
  if s ∈ p.given then refuse (.givenTwice s)
  else .ok { p with given := s :: p.given }

/-- Takes the value of a switch. -/
def takeValue (p : Progress) (s : Switch) (setting : Setting) (text : String) : Reading := do
  let p ← p.give s
  match p.arguments.assign setting text with
  | some arguments => return { p with arguments := arguments, awaiting := none }
  | none => refuse (.invalidValue s text)

/-- Takes the path of the image. -/
def takePath (p : Progress) (text : String) : Reading :=
  match p.arguments.image, Arguments.path? text with
  | some _, _ => refuse (.unexpectedArgument text)
  | none, some path => .ok { p with arguments := { p.arguments with image := some path } }
  | none, none => refuse .emptyPath

/-- Takes a switch that has no value. -/
def act (p : Progress) (s : Switch) (form : HelpForm) : Reading :=
  match s.action with
  | .assign _ => .ok { p with awaiting := some s }
  | .ignoreUnknown => do
    let p ← p.give s
    return { p with arguments := { p.arguments with ignoresUnknown := true } }
  | .help => .error (.help form)
  | .version => .error .version

/-- The part of a list up to a character, and the part behind it if the character is there. -/
def cut (c : Char) (text : List Char) : List Char × Option (List Char) :=
  match text.span (· != c) with
  | (front, []) => (front, none)
  | (front, _ :: rest) => (front, some rest)

/-- Takes a word behind two dashes. -/
def takeLong (p : Progress) (text : List Char) : Reading :=
  let (name, value?) := cut '=' text
  match Switch.findLong (String.ofList name), value?.map String.ofList with
  | none, _ => refuse (.unexpectedArgument ("--" ++ String.ofList name))
  | some s, none => p.act s .full
  | some s, some value =>
    match s.action with
    | .assign setting => p.takeValue s setting value
    | _ => refuse (.unexpectedValue s value)

/-- Takes the letters behind one dash. -/
def takeShort (p : Progress) : List Char → Reading
  | [] => .ok p
  | letter :: rest =>
    match Switch.findShort letter with
    | none => refuse (.unexpectedArgument (String.ofList ['-', letter]))
    | some s =>
      match s.action, rest with
      | .assign setting, '=' :: value => p.takeValue s setting (String.ofList value)
      | .assign setting, c :: value => p.takeValue s setting (String.ofList (c :: value))
      | _, rest => do takeShort (← p.act s .summary) rest

/-- Takes a word that is not a switch. -/
def takePlain (p : Progress) (text : String) : Reading :=
  match p.awaiting with
  | some s =>
    match s.action with
    | .assign setting => p.takeValue s setting text
    | _ => p.takePath text
  | none => p.takePath text

/-- No switch waits for its value. -/
def settled (p : Progress) : Reading :=
  match p.awaiting with
  | some s => refuse (.missingValue s)
  | none => .ok p

/-- Takes a word. -/
def take (p : Progress) (text : String) : Reading :=
  if p.onlyPaths then p.takePath text
  else
    match text.toList with
    | ['-', '-'] => do return { (← p.settled) with onlyPaths := true }
    | '-' :: '-' :: name => do (← p.settled).takeLong name
    | '-' :: c :: letters => do (← p.settled).takeShort (c :: letters)
    | _ => p.takePlain text

end Progress

/-- The arguments that the words of a command line give. -/
def Arguments.parse (words : List String) : Except Interruption Arguments := do
  let p ← words.foldlM Progress.take Progress.start
  return (← p.settled).arguments

end CommandLine

end VectorUnit
