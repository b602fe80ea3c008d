import ConfigRender.Yaml.Resolution

/-! # Scalar styles

A text is written plain where that is read back as the same text, else in single quotes,
else in double quotes.  Texts with a line feed are written as literal blocks if they can
be.  Each style is ruled out by certain characters and by where blanks and breaks stand.
-/

namespace ConfigRender.Yaml

/-- A character that ends a line. -/
def isBreak (c : Char) : Bool :=
  c = '\n' ∨ c = '\r' ∨ c = '\u0085' ∨ c = '\u2028' ∨ c = '\u2029'

/-- A character that may be written as it is. -/
def isPrintable (c : Char) : Bool :=
  let n := c.toNat
  n = 0x0A ∨ (0x20 ≤ n ∧ n ≤ 0x7E) ∨ (0xA0 ≤ n ∧ n ≠ 0xFEFF ∧ n ≠ 0xFFFE ∧ n ≠ 0xFFFF)

/-- A blank or a break, or the end of the text. -/
def isBlankOrEnd : Option Char → Bool
  | none => true
  | some c => c = ' ' ∨ c = '\t' ∨ c = '\x00' ∨ isBreak c

/-- Characters that mean something at the start of a scalar. -/
def isLeadingIndicator (c : Char) : Bool :=
  ['#', ',', '[', ']', '\x7b', '\x7d', '&', '*', '!', '|', '>', '\'', '"', '%', '@', '\x60'].contains c

/-- Whether a character between its neighbours has a meaning in a plain scalar. -/
def isIndicatorAt (before? : Option Char) (c : Char) (after? : Option Char) : Bool :=
  match before? with
  | none =>
    isLeadingIndicator c ∨ ((c = '?' ∨ c = ':' ∨ c = '-') ∧ isBlankOrEnd after?)
  | some before =>
    (c = ':' ∧ isBlankOrEnd after?) ∨ (c = '#' ∧ isBlankOrEnd (some before))

/-- Some character has a meaning in a plain scalar. -/
def hasIndicator (before? : Option Char) : List Char → Bool
  | [] => false
  | c :: rest => isIndicatorAt before? c rest.head? || hasIndicator (some c) rest

/-- Some neighbours satisfy a test. -/
def anyNeighbours (test : Char → Char → Bool) : List Char → Bool
  | a :: b :: rest => test a b || anyNeighbours test (b :: rest)
  | _ => false

def isSpace (c : Char) : Bool := c = ' '

/-- A text that looks like the mark of a document. -/
def startsLikeMark (cs : List Char) : Bool :=
  ['-', '-', '-'].isPrefixOf cs ∨ ['.', '.', '.'].isPrefixOf cs

/-- A break is followed by a space. -/
def hasBreakSpace (cs : List Char) : Bool := anyNeighbours (fun a b => isBreak a && isSpace b) cs

/-- A space is followed by a break. -/
def hasSpaceBreak (cs : List Char) : Bool := anyNeighbours (fun a b => isSpace a && isBreak b) cs

def isMultiline (cs : List Char) : Bool := cs.any isBreak

/-- Only double quotes can hold the text. -/
def needsEscapes (cs : List Char) : Bool := hasSpaceBreak cs || !cs.all isPrintable

/-- A text that can be written plain in a block. -/
def allowsPlain (cs : List Char) : Bool :=
  let outer (c? : Option Char) : Bool := c?.any fun c => isSpace c || isBreak c
  !needsEscapes cs && !isMultiline cs && !outer cs.head? && !outer cs.getLast? &&
    !startsLikeMark cs && !hasIndicator none cs

def allowsSingle (cs : List Char) : Bool := !needsEscapes cs && !hasBreakSpace cs

/-- A text that can be written as a literal block. -/
def allowsLiteral (cs : List Char) : Bool :=
  !cs.isEmpty && !needsEscapes cs && !(cs.getLast?.any isSpace)

inductive Style where
  | plain
  | single
  | double
  | literal
deriving DecidableEq

/-- The style of a text; on the line of a key and its value it must not have breaks. -/
def styleOf (onKeyLine : Bool) (s : String) : Style :=
  let cs := s.toList
  if onKeyLine && isMultiline cs then .double
  else if cs.contains '\n' then if allowsLiteral cs && !onKeyLine then .literal else .double
  else if !isAmbiguous s && allowsPlain cs then .plain
  else if allowsSingle cs then .single
  else .double

/-- A hexadecimal digit in upper case. -/
def upperHexDigit (n : Nat) : Char := "0123456789ABCDEF".toList.getD n '0'

/-- The last hexadecimal digits of a number. -/
def hexDigits (n : Nat) : Nat → List Char
  | 0 => []
  | width + 1 => hexDigits (n / 16) width ++ [upperHexDigit (n % 16)]

/-- A character inside double quotes. -/
def escapeDouble (c : Char) : List Char :=
  if isPrintable c && !isBreak c && c ≠ '"' && c ≠ '\\' then [c]
  else match c with
    | '\x00' => ['\\', '0']
    | '\x07' => ['\\', 'a']
    | '\x08' => ['\\', 'b']
    | '\t' => ['\\', 't']
    | '\n' => ['\\', 'n']
    | '\x0b' => ['\\', 'v']
    | '\x0c' => ['\\', 'f']
    | '\r' => ['\\', 'r']
    | '\x1b' => ['\\', 'e']
    | '"' => ['\\', '"']
    | '\\' => ['\\', '\\']
    | '\u0085' => ['\\', 'N']
    | '\u2028' => ['\\', 'L']
    | '\u2029' => ['\\', 'P']
    | c =>
      let n := c.toNat
      if n ≤ 0xFF then '\\' :: 'x' :: hexDigits n 2
      else if n ≤ 0xFFFF then '\\' :: 'u' :: hexDigits n 4
      else '\\' :: 'U' :: hexDigits n 8

def pad (n : Nat) : List Char := List.replicate n ' '

/-- Characters inside single quotes; a line after a break is indented. -/
def singleBody (indent : Nat) (afterBreak : Bool) : List Char → List Char
  | [] => if afterBreak then pad indent else []
  | c :: rest =>
    if isBreak c then c :: singleBody indent true rest
    else
      (if afterBreak then pad indent else []) ++ (if c = '\'' then [c, c] else [c]) ++
        singleBody indent false rest

/-- The lines of a literal block; each that is not empty is indented. -/
def literalBody (indent : Nat) (afterBreak : Bool) : List Char → List Char
  | [] => []
  | c :: rest =>
    if isBreak c then c :: literalBody indent true rest
    else (if afterBreak then pad indent else []) ++ c :: literalBody indent false rest

/-- What follows the bar of a literal block: the indentation if the text does not show it,
and what becomes of the breaks at the end. -/
def literalHints (cs : List Char) : List Char :=
  let indentation := if cs.head?.any fun c => isSpace c || isBreak c then ['2'] else []
  let ending := match cs.reverse with
    | [] => ['-']
    | [c] => if isBreak c then ['+'] else ['-']
    | last :: before :: _ =>
      if !isBreak last then ['-'] else if isBreak before then ['+'] else []
  indentation ++ ending

/-- A written scalar, and whether it ends with its line. -/
structure Written where
  text : String
  endsLine : Bool

/-- The text in a style, with further lines at an indentation. -/
def writeIn (style : Style) (indent : Nat) (s : String) : Written :=
  let cs := s.toList
  match style with
  | .plain => ⟨s, false⟩
  | .single => ⟨String.ofList ('\'' :: singleBody indent false cs ++ ['\'']), false⟩
  | .double => ⟨String.ofList ('"' :: cs.flatMap escapeDouble ++ ['"']), false⟩
  | .literal =>
    ⟨String.ofList ('|' :: literalHints cs ++ '\n' :: literalBody indent true cs),
      cs.getLast?.any isBreak⟩

/-- A scalar with the end of its line. -/
def Written.line (w : Written) : String := if w.endsLine then w.text else w.text ++ "\n"

/-- The longest key, in octets, that is written on the line of its value. -/
def maxKeyLength : Nat := 128

/-- A key that is written on the line of its value. -/
def isSimpleKey (key : String) : Bool :=
  !isMultiline key.toList && key.utf8ByteSize ≤ maxKeyLength

end ConfigRender.Yaml
