import ConfigRender.Number.Shortest

/-! # Decimal layouts

How the shortest decimal of a number is written out: where positional notation ends,
whether whole numbers keep a fraction, how exponents look, and what stands for numbers
that are not finite.
-/

namespace ConfigRender.Number

/-- The decisions of one output format about decimals. -/
structure Layout where
  /-- Which of two equally near decimals is taken. -/
  tie : Tie
  /-- Least and greatest number of digits before the point that are written positionally;
  without bounds every number is. -/
  positional : Option (Int × Int)
  /-- Whole numbers end in `.0`. -/
  wholeFraction : Bool
  /-- Positive exponents carry a sign. -/
  exponentSign : Bool
  nan : String
  infinity : String

namespace Layout

/-- Plain text: never an exponent, whole numbers without a fraction. -/
def plain : Layout where
  tie := .up
  positional := none
  wholeFraction := false
  exponentSign := false
  nan := "NaN"
  infinity := "inf"

/-- JSON text; numbers that are not finite are null. -/
def json : Layout where
  tie := .toEven
  positional := some (-4, 16)
  wholeFraction := true
  exponentSign := true
  nan := "null"
  infinity := "null"

/-- YAML text. -/
def yaml : Layout where
  tie := .toEven
  positional := some (-4, 16)
  wholeFraction := true
  exponentSign := false
  nan := ".nan"
  infinity := ".inf"

/-- Whether a decimal with its point here is written positionally. -/
def isPositional (l : Layout) (point : Int) : Bool :=
  match l.positional with
  | none => true
  | some (least, greatest) => least ≤ point ∧ point ≤ greatest

def zeros (n : Nat) : String := String.ofList (List.replicate n '0')

/-- A decimal without exponent. -/
def writePositional (l : Layout) (x : Decimal) : String :=
  let digits := toString x.digits
  let point := x.exponent + digits.length
  if 0 ≤ x.exponent then
    digits ++ zeros x.exponent.toNat ++ if l.wholeFraction then ".0" else ""
  else if 0 < point then
    String.ofList (digits.toList.take point.toNat) ++ "." ++
      String.ofList (digits.toList.drop point.toNat)
  else "0." ++ zeros (-point).toNat ++ digits

/-- A decimal with one digit before the point and an exponent. -/
def writeScientific (l : Layout) (x : Decimal) : String :=
  let digits := toString x.digits
  let exponent := x.exponent + digits.length - 1
  let rest := digits.toList.drop 1
  String.ofList (digits.toList.take 1) ++
    (if rest.isEmpty then "" else "." ++ String.ofList rest) ++ "e" ++
    (if l.exponentSign ∧ 0 ≤ exponent then "+" else "") ++ toString exponent

/-- The digits of a number without its sign. -/
def writeMagnitude (l : Layout) (d : Binary64) : String :=
  if d.isZero then if l.wholeFraction then "0.0" else "0"
  else
    let x := shortest l.tie d
    if l.isPositional (x.exponent + (toString x.digits).length) then l.writePositional x
    else l.writeScientific x

/-- A number in this layout. -/
def write (l : Layout) (d : Binary64) : String :=
  if d.isNaN then l.nan
  else (if d.isNegative then "-" else "") ++
    if d.isFinite then l.writeMagnitude d else l.infinity

end Layout

end ConfigRender.Number
