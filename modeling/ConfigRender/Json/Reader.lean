import ConfigRender.Json.Basic

/-! # Reading JSON text

The grammar is strict: blanks are space, tab, line feed and carriage return, escapes of
surrogates come in pairs, and 128 nested arrays or objects are too many.  Integers that
fit 64 bits stay integers.  All other numbers are read with one rounding: the digits that
fit an unsigned 64 bit significand, multiplied or divided once by a power of ten.
-/

namespace ConfigRender.Json.Reader

def isBlank (c : Char) : Bool := c = ' ' ∨ c = '\t' ∨ c = '\n' ∨ c = '\r'

def skipBlanks (cs : List Char) : List Char := cs.dropWhile isBlank

def isDigit (c : Char) : Bool := '0' ≤ c ∧ c ≤ '9'

def digitValue (c : Char) : Nat := c.toNat - '0'.toNat

/-! ## Numbers -/

/-- The greatest significand. -/
def maxSignificand : Nat := Nat.pow 2 64 - 1

/-- Append digits to a significand while it fits; the digits that did not are left. -/
def absorb (significand : Nat) : List Char → Nat × List Char
  | [] => (significand, [])
  | c :: rest =>
    let next := significand * 10 + digitValue c
    if next ≤ maxSignificand then absorb next rest else (significand, c :: rest)

def powerOfTen (exponent : Nat) : Binary64 := .ofRatio false (Nat.pow 10 exponent) 1

/-- A number times a power of ten.  Powers beyond the greatest one take further rounds,
after two of which nothing but zero is left. -/
def scale? : Nat → Binary64 → Int → Option Binary64
  | 0, f, _ => some f
  | rounds + 1, f, exponent =>
    if exponent.natAbs ≤ 308 then
      let power := powerOfTen exponent.natAbs
      if 0 ≤ exponent then
        let product := f.mul power
        if product.isFinite then some product else none
      else some (f.div power)
    else if f.isZero then some f
    else if 0 ≤ exponent then none
    else scale? rounds (f.div (powerOfTen 308)) (exponent + 308)

/-- The decimal `significand * 10 ^ exponent`; without a value if it is too large. -/
def decimal? (negative : Bool) (significand : Nat) (exponent : Int) : Option Json :=
  (scale? 3 (.ofInt significand) exponent).map fun f =>
    .decimal (if negative then f.neg else f)

/-- The greatest exponent that is added up; one beyond it only counts as huge. -/
def maxExponent : Nat := Nat.pow 2 31 - 1

/-- The rest of a number after its `e`. -/
def exponent? (negative : Bool) (significand : Nat) (shift : Int) (cs : List Char) :
    Option (Json × List Char) :=
  let (down, cs) := match cs with
    | '+' :: rest => (false, rest)
    | '-' :: rest => (true, rest)
    | _ => (false, cs)
  let digits := cs.takeWhile isDigit
  let rest := cs.dropWhile isDigit
  if digits.isEmpty then none
  else
    let exponent := digits.foldl (fun n c => n * 10 + digitValue c) 0
    if maxExponent < exponent then
      if significand ≠ 0 ∧ !down then none
      else some (.decimal (.ofWord negative 0), rest)
    else
      let exponent : Int := if down then shift - exponent else shift + exponent
      (decimal? negative significand exponent).map (·, rest)

/-- The rest of a number after its whole digits and point. -/
def fraction? (negative : Bool) (significand : Nat) (shift : Int) (cs : List Char) :
    Option (Json × List Char) :=
  let digits := cs.takeWhile isDigit
  let rest := cs.dropWhile isDigit
  if digits.isEmpty then none
  else
    let (significand, left) := absorb significand digits
    let shift := shift - (digits.length - left.length : Nat)
    match rest with
    | 'e' :: rest | 'E' :: rest => exponent? negative significand shift rest
    | _ => (decimal? negative significand shift).map (·, rest)

/-- A whole number as it stands. -/
def whole (negative : Bool) (n : Nat) : Json :=
  if negative then
    if n = 0 ∨ Nat.pow 2 63 < n then .decimal (Binary64.ofInt n).neg else .integer (-n)
  else .integer n

/-- A number after its sign. -/
def number? (negative : Bool) (cs : List Char) : Option (Json × List Char) :=
  let digits := cs.takeWhile isDigit
  let rest := cs.dropWhile isDigit
  if digits.isEmpty ∨ (digits.head? = some '0' ∧ 1 < digits.length) then none
  else
    let (significand, left) := absorb 0 digits
    match rest with
    | '.' :: rest => fraction? negative significand left.length rest
    | 'e' :: rest | 'E' :: rest => exponent? negative significand left.length rest
    | _ =>
      if left.isEmpty then some (whole negative significand, rest)
      else (decimal? negative significand left.length).map (·, rest)

/-! ## Texts -/

def hexValue? (c : Char) : Option Nat :=
  if isDigit c then some (digitValue c)
  else if 'a' ≤ c ∧ c ≤ 'f' then some (c.toNat - 'a'.toNat + 10)
  else if 'A' ≤ c ∧ c ≤ 'F' then some (c.toNat - 'A'.toNat + 10)
  else none

/-- Four hexadecimal digits. -/
def unit? (a b c d : Char) : Option Nat := do
  pure ((((← hexValue? a) * 16 + (← hexValue? b)) * 16 + (← hexValue? c)) * 16
    + (← hexValue? d))

/-- The character of an escape with one letter. -/
def simpleEscape? : Char → Option Char
  | '"' => some '"'
  | '\\' => some '\\'
  | '/' => some '/'
  | 'b' => some '\x08'
  | 'f' => some '\x0c'
  | 'n' => some '\n'
  | 'r' => some '\r'
  | 't' => some '\t'
  | _ => none

/-- The characters up to the closing quote, and the rest after it. -/
def characters? : List Char → Option (List Char × List Char)
  | [] => none
  | '"' :: rest => some ([], rest)
  | '\\' :: 'u' :: a :: b :: c :: d :: rest => do
    let high ← unit? a b c d
    if 0xDC00 ≤ high ∧ high ≤ 0xDFFF then none
    else if 0xD800 ≤ high ∧ high ≤ 0xDBFF then
      match rest with
      | '\\' :: 'u' :: e :: f :: g :: h :: rest' =>
        let low ← unit? e f g h
        if 0xDC00 ≤ low ∧ low ≤ 0xDFFF then
          let (cs, rest'') ← characters? rest'
          pure (Char.ofNat (0x10000 + (high - 0xD800) * 0x400 + (low - 0xDC00)) :: cs, rest'')
        else none
      | _ => none
    else
      let (cs, rest') ← characters? rest
      pure (Char.ofNat high :: cs, rest')
  | '\\' :: c :: rest => do
    let character ← simpleEscape? c
    let (cs, rest') ← characters? rest
    pure (character :: cs, rest')
  | c :: rest =>
    if c.toNat < 0x20 ∨ c = '\\' then none
    else do
      let (cs, rest') ← characters? rest
      pure (c :: cs, rest')

/-- A text after its opening quote. -/
def text? (cs : List Char) : Option (String × List Char) :=
  (characters? cs).map fun (s, rest) => (String.ofList s, rest)

/-! ## Trees -/

/-- A word that must stand here in full. -/
def word? (word : String) (tree : Json) (cs : List Char) : Option (Json × List Char) :=
  if word.toList.isPrefixOf cs then some (tree, cs.drop word.length) else none

mutual

/-- One tree and the text after it; `depth` is one more than the levels that may still be
opened. -/
def tree? : Nat → Nat → List Char → Option (Json × List Char)
  | 0, _, _ => none
  | fuel + 1, depth, cs =>
    match skipBlanks cs with
    | '"' :: rest => (text? rest).map fun (s, rest) => (.string s, rest)
    | '[' :: rest =>
      if depth ≤ 1 then none
      else match skipBlanks rest with
        | ']' :: rest => some (.array [], rest)
        | rest => (elements? fuel (depth - 1) rest).map fun (js, rest) => (.array js, rest)
    | '\x7b' :: rest =>
      if depth ≤ 1 then none
      else match skipBlanks rest with
        | '\x7d' :: rest => some (.object [], rest)
        | rest => (fields? fuel (depth - 1) rest).map fun (fs, rest) =>
            (.object (Entries.sorted fs), rest)
    | '-' :: rest => number? true rest
    | 't' :: rest => word? "rue" (.boolean true) rest
    | 'f' :: rest => word? "alse" (.boolean false) rest
    | 'n' :: rest => word? "ull" .null rest
    | rest => number? false rest

/-- Elements up to the closing bracket. -/
def elements? : Nat → Nat → List Char → Option (List Json × List Char)
  | 0, _, _ => none
  | fuel + 1, depth, cs => do
    let (j, rest) ← tree? fuel depth cs
    match skipBlanks rest with
    | ',' :: rest =>
      let (js, rest) ← elements? fuel depth rest
      pure (j :: js, rest)
    | ']' :: rest => pure ([j], rest)
    | _ => none

/-- Fields up to the closing brace. -/
def fields? : Nat → Nat → List Char → Option (List (String × Json) × List Char)
  | 0, _, _ => none
  | fuel + 1, depth, cs => do
    let (key, rest) ← match skipBlanks cs with
      | '"' :: rest => text? rest
      | _ => none
    let (j, rest) ← match skipBlanks rest with
      | ':' :: rest => tree? fuel depth rest
      | _ => none
    match skipBlanks rest with
    | ',' :: rest =>
      let (fs, rest) ← fields? fuel depth rest
      pure ((key, j) :: fs, rest)
    | '\x7d' :: rest => pure ([(key, j)], rest)
    | _ => none

end

/-- The levels that one text may not reach. -/
def maxDepth : Nat := 128

end Reader

/-- The canonical tree of a text, if it is JSON. -/
def read? (text : String) : Option Json :=
  let cs := text.toList
  match Reader.tree? (2 * cs.length + 2) Reader.maxDepth cs with
  | some (j, rest) => if (Reader.skipBlanks rest).isEmpty then some j else none
  | none => none

end ConfigRender.Json
