import ConfigRender.Json.Basic
import ConfigRender.Number.Layout
import ConfigRender.Yaml.Scalar

/-! # YAML text

Trees in block style, indented by two.  A sequence under a key stands at the indentation
of the key.  Keys that are long or have breaks stand after a question mark.
-/

namespace ConfigRender.Yaml

def padding (n : Nat) : String := String.ofList (pad n)

/-- The line of a scalar or of an empty collection, further lines at an indentation. -/
def leafLine (indent : Nat) : Json → String
  | .null => "null\n"
  | .boolean b => if b then "true\n" else "false\n"
  | .integer n => toString n ++ "\n"
  | .decimal d => Number.Layout.yaml.write d ++ "\n"
  | .string s => (writeIn (styleOf false s) indent s).line
  | .array _ => "[]\n"
  | .object _ => "\x7b\x7d\n"

/-- A key with its colon. -/
def keyText (indent : Nat) (key : String) : String :=
  if isSimpleKey key then (writeIn (styleOf true key) indent key).text ++ ":"
  else
    "? " ++ (writeIn (styleOf false key) (indent + 2) key).line ++ padding indent ++ ":"

mutual

/-- A tree after a dash or the colon of a long key; the cursor stands at the
indentation. -/
def inlineText (indent : Nat) : Json → String
  | .array (j :: rest) => "- " ++ inlineText (indent + 2) j ++ itemsText indent rest
  | .object ((key, j) :: rest) =>
    keyText indent key ++ valueText indent (isSimpleKey key) j ++ fieldsText indent rest
  | leaf => leafLine indent leaf

/-- The value of a field at an indentation, after the colon. -/
def valueText (indent : Nat) (simple : Bool) : Json → String
  | .array (j :: rest) =>
    if simple then
      "\n" ++ padding indent ++ "- " ++ inlineText (indent + 2) j ++ itemsText indent rest
    else
      " - " ++ inlineText (indent + 4) j ++ itemsText (indent + 2) rest
  | .object ((key, j) :: rest) =>
    (if simple then "\n" ++ padding (indent + 2) else " ") ++ keyText (indent + 2) key ++
      valueText (indent + 2) (isSimpleKey key) j ++ fieldsText (indent + 2) rest
  | leaf => " " ++ leafLine (indent + 2) leaf

/-- Further items of a sequence. -/
def itemsText (indent : Nat) : List Json → String
  | [] => ""
  | j :: rest => padding indent ++ "- " ++ inlineText (indent + 2) j ++ itemsText indent rest

/-- Further fields of a mapping. -/
def fieldsText (indent : Nat) : List (String × Json) → String
  | [] => ""
  | (key, j) :: rest =>
    padding indent ++ keyText indent key ++ valueText indent (isSimpleKey key) j ++
      fieldsText indent rest

end

/-- The text of a tree. -/
def print (j : Json) : String := inlineText 0 j

end ConfigRender.Yaml
