import ConfigRender.Json.Basic
import ConfigRender.Number.Layout

/-! # JSON text

Compact text without blanks, and pretty text with one element a line, indented by two
blanks a level; empty arrays and objects stay on one line.  Characters beyond ASCII are
written as they are.
-/

namespace ConfigRender.Json

/-- A hexadecimal digit in lower case. -/
def hexDigit (n : Nat) : Char := "0123456789abcdef".toList.getD n '0'

/-- A character inside a quoted text. -/
def escape (c : Char) : List Char :=
  match c with
  | '"' => ['\\', '"']
  | '\\' => ['\\', '\\']
  | '\x08' => ['\\', 'b']
  | '\x0c' => ['\\', 'f']
  | '\n' => ['\\', 'n']
  | '\r' => ['\\', 'r']
  | '\t' => ['\\', 't']
  | c =>
    if c.toNat < 0x20 then
      ['\\', 'u', '0', '0', hexDigit (c.toNat / 16), hexDigit (c.toNat % 16)]
    else [c]

def quoted (s : String) : String :=
  "\"" ++ String.ofList (s.toList.flatMap escape) ++ "\""

/-- The text of a tree that holds no others. -/
def leafText : Json → String
  | .null => "null"
  | .boolean b => if b then "true" else "false"
  | .integer n => toString n
  | .decimal d => Number.Layout.json.write d
  | .string s => quoted s
  | .array _ | .object _ => ""

mutual

/-- Write the text without blanks after other text. -/
def writeCompact (out : String) : Json → String
  | .array elements => writeElements (out ++ "[") elements ++ "]"
  | .object fields => writeFields (out ++ "\x7b") fields ++ "\x7d"
  | leaf => out ++ leafText leaf

/-- Write elements with commas between them. -/
def writeElements (out : String) : List Json → String
  | [] => out
  | [j] => writeCompact out j
  | j :: rest => writeElements (writeCompact out j ++ ",") rest

/-- Write fields with commas between them. -/
def writeFields (out : String) : List (String × Json) → String
  | [] => out
  | [(key, j)] => writeCompact (out ++ quoted key ++ ":") j
  | (key, j) :: rest => writeFields (writeCompact (out ++ quoted key ++ ":") j ++ ",") rest

end

/-- The text without blanks. -/
def compact (j : Json) : String := writeCompact "" j

def indent (depth : Nat) : String := String.ofList (List.replicate (2 * depth) ' ')

mutual

/-- Write the text with one element a line, at a depth, after other text. -/
def writePretty (depth : Nat) (out : String) : Json → String
  | .array [] => out ++ "[]"
  | .array elements =>
    writeElementLines (depth + 1) (out ++ "[\n") elements ++ "\n" ++ indent depth ++ "]"
  | .object [] => out ++ "\x7b\x7d"
  | .object fields =>
    writeFieldLines (depth + 1) (out ++ "\x7b\n") fields ++ "\n" ++ indent depth ++ "\x7d"
  | leaf => out ++ leafText leaf

/-- Write elements, each on lines of its own. -/
def writeElementLines (depth : Nat) (out : String) : List Json → String
  | [] => out
  | [j] => writePretty depth (out ++ indent depth) j
  | j :: rest =>
    writeElementLines depth (writePretty depth (out ++ indent depth) j ++ ",\n") rest

/-- Write fields, each on lines of its own. -/
def writeFieldLines (depth : Nat) (out : String) : List (String × Json) → String
  | [] => out
  | [(key, j)] => writePretty depth (out ++ indent depth ++ quoted key ++ ": ") j
  | (key, j) :: rest =>
    writeFieldLines depth
      (writePretty depth (out ++ indent depth ++ quoted key ++ ": ") j ++ ",\n") rest

end

/-- The text with one element a line. -/
def pretty (j : Json) : String := writePretty 0 "" j

end ConfigRender.Json
