import VectorUnit.CommandLine.Files
import VectorUnit.CommandLine.Help
import VectorUnit.SaveState.Encoding

/-!
# Sessions

A session is one call of the command line. It loads a save state and an image into a unit, and
perhaps another image into the other unit; it runs each unit as often as it was asked to, in turns;
it prints the registers of each; and it writes a save state of the first unit. `Session.run` does
this through `Files`, and its outcome is what it prints and how it ends (`Outcome`).

The first thing that goes wrong ends a session (`Failure`). The registers are printed before the
save state is written, so a failure to write it comes after them.
-/

namespace VectorUnit

namespace CommandLine

/-- Why a session fails. -/
inductive Failure where
  | reading (path : String) (error : FileError)
  | decoding (error : Cbor.DecodeError)
  | nothingToRun
  | creating (error : Arena.ReservationError)
  | loading (error : SaveState.Misfit)
  | tooLong (length : Nat) (kind : UnitKind)
  | writing (path : String) (error : FileError)
  | fault (fault : Fault)
deriving DecidableEq, Repr

namespace Failure

/-- What failed. -/
def headline : Failure → String
  | reading path _ => s!"reading {path}"
  | decoding _ => "decoding save state"
  | nothingToRun => "nothing to run: provide an image or a save state"
  | creating _ => "creating unit"
  | loading _ => "loading save state"
  | tooLong length kind =>
    s!"image is {length} bytes but {kind.name} microcode memory holds {kind.memorySize}"
  | writing path _ => s!"writing {path}"
  | fault f => f.message?.getD "the unit cannot go on"

/-- Why it failed. -/
def cause? : Failure → Option String
  | reading _ e => some e.message
  | decoding e => some e.message
  | nothingToRun => none
  | creating e => some e.message
  | loading e => some e.message
  | tooLong _ _ => none
  | writing _ e => some e.message
  | fault _ => none

/-- The report of a failure. A path in the headline may hold line breaks. -/
def report (f : Failure) : List String :=
  s!"Error: {f.headline}".splitOn "\n" ++
    match f.cause? with
    | some cause => ["", "Caused by:", s!"    {cause}"]
    | none => []

/-- The exit code of a failure. -/
def exitCode : Failure → Nat
  | fault _ => 101
  | _ => 1

end Failure

/-- What a session prints and how it ends. -/
structure Outcome where
  exitCode : Nat
  /-- The lines printed. -/
  printed : List String
  /-- The lines reported as an error. -/
  reported : List String
deriving DecidableEq, Repr

namespace Outcome

/-- The end of a session that did all it was asked to. -/
def success (printed : List String) : Outcome :=
  ⟨0, printed, []⟩

/-- The end of a session that failed. -/
def failure (printed : List String) (f : Failure) : Outcome :=
  ⟨f.exitCode, printed, f.report⟩

/-- The end of a session that did not begin. -/
def interrupted : Interruption → Outcome
  | .usage e => ⟨2, [], e.lines⟩
  | .help form => success (Help.lines form)
  | .version => success [Help.versionLine]

end Outcome

namespace Session

/-! ### Units -/

/-- The unit after an image is loaded, if the image fits. -/
def withImage (unit : Processor) (image : Content) : Except Failure Processor :=
  let kind := unit.config.kind
  if image.length ≤ kind.memorySize then .ok (unit.write 0 image)
  else .error (.tooLong image.length kind)

/-- The unit after a save state is loaded, if it fits. -/
def withState (unit : Processor) (state : SaveState) : Except Failure Processor :=
  match unit.load state with
  | .ok unit => .ok unit
  | .error e => .error (.loading e)

/-- A new unit. -/
def createUnit (host : Host) (config : Config) : Except Failure Processor :=
  match Processor.create host config with
  | .ok unit => .ok unit
  | .error e => .error (.creating e)

/-- The units of a session. -/
structure Units where
  main : Runner
  other : Option Runner

/-- The outcome of an action on a runner, whose faults are failures of the session. -/
def surface {α : Type} : Except Fault α → Except Failure α
  | .ok a => .ok a
  | .error fault => .error (.fault fault)

/-- Requests an execution on each unit, and then pulls the report of each. -/
def turn (a : Arguments) (units : Units) : Except Fault Units := do
  let main ← units.main.request a.start a.budget
  match units.other with
  | some other =>
    let other ← other.request a.start a.budget
    let (_, main) ← main.pull
    let (_, other) ← other.pull
    return ⟨main, some other⟩
  | none =>
    let (_, main) ← main.pull
    return ⟨main, none⟩

/-- A number of turns. -/
def turns (a : Arguments) : (count : Nat) → Units → Except Fault Units
  | 0, units => .ok units
  | count + 1, units => do turns a count (← turn a units)

/-! ### Printing -/

/-- The text of a number in at least two digits. -/
def twoDigits (n : Nat) : String :=
  String.ofList (Hex.fill 2 (Nat.toDigits 10 n))

/-- The text of an integer register. -/
def registerText (index : Nat) (value : UInt16) : String :=
  s!"vi{twoDigits index}={Hex.padded 4 value.toNat}"

/-- The line of four integer registers. -/
def registerLine (registers : Registers) (row : Nat) : String :=
  " ".intercalate ((List.range 4).map fun column =>
    let index := 4 * row + column
    registerText index (registers.vi.toList.getD index 0))

/-- The lines that show the registers of a unit. -/
def registerLines (kind : UnitKind) (registers : Registers) : List String :=
  let pc := Hex.padded 4 registers.pc.toNat
  let status := Hex.marked registers.status.toNat
  let kick := Hex.marked registers.kick.toNat
  s!"{kind.name}: pc={pc} status={status} kick={kick}" ::
    (List.range 4).map (registerLine registers)

/-- The lines that show the registers of each unit. -/
def showUnits (a : Arguments) (units : Units) : Except Fault (List String × Units) := do
  let (registers, main) ← units.main.registers
  let printed := registerLines a.kind registers
  match units.other with
  | some other =>
    let (registers, other) ← other.registers
    return (printed ++ registerLines a.kind.other registers, ⟨main, some other⟩)
  | none => return (printed, ⟨main, none⟩)

/-! ### The course of a session -/

/-- A step of a session, which may fail. -/
abbrev Step (m : Type → Type) := ExceptT Failure m

/-- Reads a file. -/
def readFile {m : Type → Type} [Monad m] (files : Files m) (path : String) : Step m Content := do
  match ← (files.read path : m _) with
  | .ok content => return content
  | .error e => throw (.reading path e)

/-- Reads a save state. -/
def readState {m : Type → Type} [Monad m] (files : Files m) (path : String) : Step m SaveState := do
  match SaveState.decode (← readFile files path) with
  | .ok state => return state
  | .error e => throw (.decoding e)

/-- Opens a unit behind a runner: a save state is loaded first, and then an image. -/
def openUnit {m : Type → Type} [Monad m] (host : Host) (files : Files m) (a : Arguments)
    (kind : UnitKind) (image? : Option String) (state? : Option SaveState) : Step m Runner := do
  let unit ← createUnit host (a.config kind)
  let unit ← match state? with
    | some state => withState unit state
    | none => pure unit
  let unit ← match image? with
    | some path => withImage unit (← readFile files path)
    | none => pure unit
  return .create a.mode unit

/-- Reads the save state that the session goes on from, if there is one. -/
def readResumed {m : Type → Type} [Monad m] (files : Files m) (a : Arguments) :
    Step m (Option SaveState) := do
  match a.resumeFrom with
  | some path => return some (← readState files path)
  | none => return none

/-- Opens the other unit on its image, if there is one. -/
def openOther {m : Type → Type} [Monad m] (host : Host) (files : Files m) (a : Arguments) :
    Step m (Option Runner) := do
  match a.other with
  | some path => return some (← openUnit host files a a.kind.other (some path) none)
  | none => return none

/-- Opens the units of a session. -/
def openUnits {m : Type → Type} [Monad m] (host : Host) (files : Files m) (a : Arguments) :
    Step m Units := do
  let state? ← readResumed files a
  if a.image.isNone && state?.isNone then
    throw .nothingToRun
  let main ← openUnit host files a a.kind a.image state?
  return ⟨main, ← openOther host files a⟩

/-- Runs the units and shows their registers. -/
def runUnits (a : Arguments) (units : Units) : Except Failure (List String × Units) :=
  surface do showUnits a (← turns a a.iterations units)

/-- Writes the save state of the first unit. -/
def save {m : Type → Type} [Monad m] (files : Files m) (a : Arguments) (units : Units) :
    Step m PUnit := do
  match a.keepIn with
  | some path =>
    let (state, _) ← surface units.main.save
    match ← (files.write path state.encode : m _) with
    | .ok _ => return ⟨⟩
    | .error e => throw (.writing path e)
  | none => return ⟨⟩

/-- A whole session, given the arguments. -/
def run {m : Type → Type} [Monad m] (host : Host) (files : Files m) (a : Arguments) :
    m Outcome := do
  match ← (openUnits host files a).run with
  | .error f => return .failure [] f
  | .ok units =>
    match runUnits a units with
    | .error f => return .failure [] f
    | .ok (printed, units) =>
      -- What was printed stays printed when the save state cannot be written.
      match ← (save files a units).run with
      | .error f => return .failure printed f
      | .ok _ => return .success printed

/-- A whole session, given the words of the command line. -/
def ofWords {m : Type → Type} [Monad m] (host : Host) (files : Files m) (words : List String) :
    m Outcome :=
  match Arguments.parse words with
  | .ok a => run host files a
  | .error e => return .interrupted e

end Session

end CommandLine

end VectorUnit
