import VectorUnit.Text.Hexadecimal
import VectorUnit.Text.Shapeless

/-!
# Quoted text

`quoted` writes a text between quotes so that it shows what the text holds: quotes and backslashes
stand behind a backslash, the common control characters are written by a letter, and every other
character without a shape of its own (`Quoted.isShapeless`) is written by its number in base
sixteen. A quoted text has no line breaks.
-/

namespace VectorUnit

namespace Quoted

/-- A character as it is written between quotes. -/
def escape (c : Char) : List Char :=
  match c with
  | '"' => ['\\', '"']
  | '\\' => ['\\', '\\']
  | '\n' => ['\\', 'n']
  | '\r' => ['\\', 'r']
  | '\t' => ['\\', 't']
  | '\x00' => ['\\', '0']
  | c => if isShapeless c then '\\' :: 'u' :: '\x7b' :: Hex.digits c.toNat ++ ['\x7d'] else [c]

end Quoted

/-- A text between quotes. -/
def quoted (text : String) : String :=
  String.ofList ('"' :: text.toList.flatMap Quoted.escape ++ ['"'])

end VectorUnit
