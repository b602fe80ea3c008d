/-! # Plain scalars that are not texts

Written without quotes, some texts would be read as null, a boolean or a number.  A text
of digits with a leading zero is read as a text, but by some readers only.
-/

namespace ConfigRender.Yaml

def isNullWord (s : String) : Bool := ["", "null", "Null", "NULL", "~"].contains s

def isBooleanWord (s : String) : Bool :=
  ["true", "True", "TRUE", "false", "False", "FALSE"].contains s

def isDecimalDigit (c : Char) : Bool := '0' ≤ c ∧ c ≤ '9'

/-- The value of a digit in a base up to sixteen. -/
def digitIn? (base : Nat) (c : Char) : Option Nat :=
  let value :=
    if isDecimalDigit c then c.toNat - '0'.toNat
    else if 'a' ≤ c ∧ c ≤ 'f' then c.toNat - 'a'.toNat + 10
    else if 'A' ≤ c ∧ c ≤ 'F' then c.toNat - 'A'.toNat + 10
    else 16
  if value < base then some value else none

/-- The number that digits of a base spell. -/
def natIn? (base : Nat) (cs : List Char) : Option Nat :=
  if cs.isEmpty then none
  else cs.foldlM (fun n c => (digitIn? base c).map (n * base + ·)) 0

/-- The text without a leading plus. -/
def withoutPlus (cs : List Char) : List Char :=
  match cs with
  | '+' :: rest => rest
  | _ => cs

def startsWithSign (cs : List Char) : Bool := cs.head? = some '+' ∨ cs.head? = some '-'

/-- A leading zero before more digits, after at most one sign. -/
def hasLeadingZero (cs : List Char) : Bool :=
  match (if startsWithSign cs then cs.drop 1 else cs) with
  | '0' :: d :: rest => (d :: rest).all isDecimalDigit
  | _ => false

/-- What may stand before the digits of a whole number, by base. -/
def bases : List (List Char × Nat) := [(['0', 'x'], 16), (['0', 'o'], 8), (['0', 'b'], 2)]

/-- A whole number below a limit, with at most a plus before it. -/
def isUnsigned (limit : Nat) (cs : List Char) : Bool :=
  let plain := withoutPlus cs
  let fits (n? : Option Nat) : Bool := n?.any (· < limit)
  bases.any (fun (start, base) =>
      start.isPrefixOf plain && fits (natIn? base (plain.drop start.length))) ||
    (!startsWithSign plain && !hasLeadingZero cs && fits (natIn? 10 plain))

/-- A negative whole number, not below the negated limit. -/
def isNegative (limit : Nat) (cs : List Char) : Bool :=
  match cs with
  | '-' :: rest =>
    let fits (n? : Option Nat) : Bool := n?.any (· ≤ limit)
    bases.any (fun (start, base) =>
        start.isPrefixOf rest && fits (natIn? base (rest.drop start.length))) ||
      (!hasLeadingZero cs && fits (natIn? 10 rest))
  | _ => false

/-- A whole number of at most 128 bits. -/
def isWhole (cs : List Char) : Bool := isUnsigned (Nat.pow 2 128) cs || isNegative (Nat.pow 2 127) cs

/-- Whether `digits * 10 ^ exponent` lies below the numbers that round to infinity. -/
def isFiniteDecimal (digits : Nat) (exponent : Int) : Bool :=
  let limit := Nat.pow 2 1024 - Nat.pow 2 970
  if digits = 0 then true
  else
    let size := exponent + (toString digits).length
    if 310 < size then false
    else if size < 300 then true
    else if 0 ≤ exponent then digits * Nat.pow 10 exponent.toNat < limit
    else digits < limit * Nat.pow 10 (-exponent).toNat

/-- A finite decimal with digits before or after the point. -/
def isDecimal (cs : List Char) : Bool :=
  let cs := if cs.head? = some '-' then cs.drop 1 else cs
  let whole := cs.takeWhile isDecimalDigit
  let rest := cs.dropWhile isDecimalDigit
  let (fraction, rest) := match rest with
    | '.' :: rest => (rest.takeWhile isDecimalDigit, rest.dropWhile isDecimalDigit)
    | _ => ([], rest)
  if whole.isEmpty ∧ fraction.isEmpty then false
  else
    let digits := (natIn? 10 (whole ++ fraction)).getD 0
    let finite (exponent : Int) : Bool := isFiniteDecimal digits (exponent - fraction.length)
    match rest with
    | [] => finite 0
    | e :: rest =>
      if e = 'e' ∨ e = 'E' then
        let exponent := natIn? 10 (if startsWithSign rest then rest.drop 1 else rest)
        match exponent with
        | some n => finite (if rest.head? = some '-' then -n else n)
        | none => false
      else false

/-- A number with a point or an exponent, or one that is not finite. -/
def isFloat (s : String) : Bool :=
  let cs := s.toList
  let plain := withoutPlus cs
  !(cs.head? = some '+' && startsWithSign plain) &&
    ([".inf", ".Inf", ".INF"].contains (String.ofList plain) ||
      ["-.inf", "-.Inf", "-.INF", ".nan", ".NaN", ".NAN"].contains s || isDecimal plain)

/-- Whether a text needs quotes to be read as a text. -/
def isAmbiguous (s : String) : Bool :=
  isNullWord s || isBooleanWord s || isWhole s.toList || hasLeadingZero s.toList || isFloat s

end ConfigRender.Yaml
