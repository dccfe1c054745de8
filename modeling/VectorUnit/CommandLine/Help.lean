import VectorUnit.CommandLine.Arguments

/-!
# Help

The text that the command line shows when it is asked for help. A summary gives each switch two
lines, its spelling and its description; the full form gives the notes on a switch lines of their
own and leaves a blank line between switches.
-/

namespace VectorUnit

namespace CommandLine

namespace Help

/-- The name of the program. -/
def program : String := "vurun"

/-- The version of the program. -/
def version : String := "0.1.0"

/-- What the program does. -/
def purpose : String := s!"{program}: runs vector unit microprograms"

/-- How the program is called. -/
def usage : String := s!"Usage: {program} [OPTIONS] [IMAGE]"

/-- The line that answers the request for the version. -/
def versionLine : String := s!"{program} {version}"

/-- The blanks in front of a description. -/
def margin : String := "          "

/-- The description of a switch. -/
def description (form : HelpForm) (s : Switch) : String :=
  match s.action, form with
  | .help, .summary => s!"{s.description} (see more with '--help')"
  | .help, .full => s!"{s.description} (see a summary with '-h')"
  | _, _ => s.description

/-- The notes on a switch: the value used when nothing is said, and its other name. -/
def remarks (s : Switch) : List String :=
  (s.standard.map fun text => s!"[default: {text}]").toList ++
    (s.synonym.map fun text => s!"[alias: --{text}]").toList

/-- The first line on a switch. -/
def heading (s : Switch) : String :=
  match s.short with
  | some letter => s!"  -{letter}, {s.spelling}"
  | none => s!"      {s.spelling}"

/-- The lines on a switch. -/
def switchLines (form : HelpForm) (s : Switch) : List String :=
  match form with
  | .summary => [heading s, margin ++ " ".intercalate (description form s :: remarks s)]
  | .full =>
    let notes := if (remarks s).isEmpty then [] else "" :: remarks s
    heading s :: (description form s :: notes).map (margin ++ ·)

/-- The lines on the path of the image. -/
def imageLines : HelpForm → List String
  | .summary => ["  [IMAGE]  Path to the microprogram image to load"]
  | .full => "  [IMAGE]" :: [
      "Path to the microprogram image to load.",
      "",
      "The image is raw little-endian instruction pairs, loaded at offset 0."].map (margin ++ ·)

/-- The lines of the help. -/
def lines (form : HelpForm) : List String :=
  let separator := match form with
    | .summary => []
    | .full => [""]
  [purpose, "", usage, "", "Arguments:"] ++ imageLines form ++ ["", "Options:"] ++
    separator.intercalate (Switch.all.map (switchLines form))

end Help

/-- The lines that report a command line that cannot be read. -/
def UsageError.lines (e : UsageError) : List String :=
  [s!"error: {e.message}", "", Help.usage, "", "For more information, try '--help'."]

end CommandLine

end VectorUnit
