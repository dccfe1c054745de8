import VectorUnit.CommandLine.Session

/-!
# The program

Runs a session over the files of the machine, prints its lines and leaves with its exit code.
-/

open VectorUnit CommandLine

/-- The number of an error of the operating system, which some operations report negated. -/
def errorNumber (code : UInt32) : UInt32 :=
  min code (0 - code)

/-- The error of an operation on files. -/
def fileError (e : IO.Error) : FileError :=
  match e with
  | .noFileOrDirectory .. => .notFound
  | .inappropriateType _ code _ =>
    match errorNumber code with
    | 20 => .notADirectory
    | 21 => .isADirectory
    | _ => .other (toString e)
  | .invalidArgument _ code _ =>
    match errorNumber code with
    | 36 => .nameTooLong
    | _ => .other (toString e)
  | _ => .other (toString e)

/-- An operation on files whose error is its result. -/
def guarded {α : Type} (action : IO α) : IO (Except FileError α) :=
  try
    return .ok (← action)
  catch e =>
    return .error (fileError e)

/-- Access to the files of the machine. -/
def machineFiles : Files IO where
  read path := guarded do return (← IO.FS.readBinFile path).toList
  write path content := guarded do
    IO.FS.writeBinFile path (ByteArray.mk content.toArray)
    return ⟨⟩

/-- The program. -/
def main (words : List String) : IO UInt32 := do
  let outcome ← Session.ofWords Host.compact machineFiles words
  for line in outcome.printed do
    IO.println line
  for line in outcome.reported do
    IO.eprintln line
  return UInt32.ofNat outcome.exitCode
