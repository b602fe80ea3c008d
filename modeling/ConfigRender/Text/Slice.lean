/-! # Slices by octet

A cut of a text at octet positions exists only where both positions lie within the text
and between characters.
-/

namespace ConfigRender.Text

/-- The characters that fill exactly the first `octets` octets, and the others. -/
def splitOctets? : Nat → List Char → Option (List Char × List Char)
  | 0, rest => some ([], rest)
  | _ + 1, [] => none
  | octets, c :: rest =>
    if c.utf8Size ≤ octets then
      (splitOctets? (octets - c.utf8Size) rest).map fun (a, b) => (c :: a, b)
    else none

/-- The text between two octet positions. -/
def slice? (text : String) (first last : Nat) : Option String := do
  if last < first then none
  else
    let (_, rest) ← splitOctets? first text.toList
    let (middle, _) ← splitOctets? (last - first) rest
    pure (String.ofList middle)

end ConfigRender.Text
