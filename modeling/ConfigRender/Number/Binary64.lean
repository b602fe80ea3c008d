/-! # Binary64 numbers

A 64 bit floating-point word, read as sign, exponent and fraction.  Arithmetic is
exact on natural numbers and rounds once, to the nearest word, a tie going to the
even significand.
-/

namespace ConfigRender

/-- A floating-point number, given by its 64 bits. -/
structure Binary64 where
  bits : UInt64
deriving DecidableEq, Inhabited

/-- A quotient of naturals rounded to the nearest natural; a half goes to the even one. -/
def Number.roundHalfEven (num den : Nat) : Nat :=
  let quotient := num / den
  let twice := 2 * (num % den)
  if twice < den ∨ (twice = den ∧ quotient % 2 = 0) then quotient else quotient + 1

namespace Binary64

/-- The bits as a natural number. -/
def word (d : Binary64) : Nat := d.bits.toNat

def isNegative (d : Binary64) : Bool := Nat.pow 2 63 ≤ d.word

/-- The eleven exponent bits. -/
def exponentField (d : Binary64) : Nat := d.word / Nat.pow 2 52 % Nat.pow 2 11

/-- The fifty-two fraction bits. -/
def fraction (d : Binary64) : Nat := d.word % Nat.pow 2 52

def isNaN (d : Binary64) : Bool := d.exponentField = 2047 ∧ d.fraction ≠ 0

def isFinite (d : Binary64) : Bool := d.exponentField ≠ 2047

def isZero (d : Binary64) : Bool := d.word % Nat.pow 2 63 = 0

/-- The integral significand: the magnitude is `significand * 2 ^ scale`. -/
def significand (d : Binary64) : Nat :=
  if d.exponentField = 0 then d.fraction else Nat.pow 2 52 + d.fraction

/-- The power of two that the significand counts. -/
def scale (d : Binary64) : Int := (max d.exponentField 1 : Nat) - 1075

/-- The magnitude of a finite number as a quotient of naturals. -/
def magnitude (d : Binary64) : Nat × Nat :=
  if 0 ≤ d.scale then (d.significand * Nat.pow 2 d.scale.toNat, 1)
  else (d.significand, Nat.pow 2 (-d.scale).toNat)

/-- The word with this sign and these sixty-three lower bits. -/
def ofWord (negative : Bool) (lower : Nat) : Binary64 :=
  ⟨.ofNat (if negative then Nat.pow 2 63 + lower else lower)⟩

/-- The one NaN that answers show. -/
def nan : Binary64 := ofWord false (2047 * Nat.pow 2 52 + Nat.pow 2 51)

/-- The least `e`, not below -1074, such that `num / den` has at most 53 bits before the
point when counted in `2 ^ e`. -/
def unitOf (num den : Nat) : Int :=
  let low : Int := (num.log2 : Int) - den.log2 - 53
  let whole :=
    if 0 ≤ low then num / (den * Nat.pow 2 low.toNat) else num * Nat.pow 2 (-low).toNat / den
  max (if whole < Nat.pow 2 53 then low else low + 1) (-1074)

/-- The number nearest to `num / den`; beyond the largest one it is infinite. -/
def ofRatio (negative : Bool) (num den : Nat) : Binary64 :=
  if num = 0 then ofWord negative 0
  else
    let unit := unitOf num den
    let count :=
      if 0 ≤ unit then Number.roundHalfEven num (den * Nat.pow 2 unit.toNat)
      else Number.roundHalfEven (num * Nat.pow 2 (-unit).toNat) den
    ofWord negative (min ((unit + 1074).toNat * Nat.pow 2 52 + count) (2047 * Nat.pow 2 52))

/-- The number nearest to an integer. -/
def ofInt (n : Int) : Binary64 := ofRatio (n < 0) n.natAbs 1

def neg (d : Binary64) : Binary64 := ofWord (!d.isNegative) (d.word % Nat.pow 2 63)

/-- The product of finite numbers, rounded once. -/
def mul (a b : Binary64) : Binary64 :=
  ofRatio (a.isNegative != b.isNegative) (a.magnitude.1 * b.magnitude.1)
    (a.magnitude.2 * b.magnitude.2)

/-- The quotient of finite numbers with a divisor other than zero, rounded once. -/
def div (a b : Binary64) : Binary64 :=
  ofRatio (a.isNegative != b.isNegative) (a.magnitude.1 * b.magnitude.2)
    (a.magnitude.2 * b.magnitude.1)

/-- Numerical equality: a NaN differs from everything, and the two zeros are equal. -/
def eqv (a b : Binary64) : Bool :=
  !a.isNaN && !b.isNaN && (a == b || (a.isZero && b.isZero))

theorem eqv_self (d : Binary64) : d.eqv d = !d.isNaN := by simp [eqv]

theorem eqv_comm (a b : Binary64) : a.eqv b = b.eqv a := by
  unfold eqv
  rw [Bool.and_comm (!a.isNaN), Bool.and_comm a.isZero, Bool.beq_comm (a := a)]

theorem eqv_trans {a b c : Binary64} (h : a.eqv b = true) (h' : b.eqv c = true) :
    a.eqv c = true := by
  simp only [eqv, Bool.and_eq_true, Bool.or_eq_true, beq_iff_eq] at h h' ⊢
  grind

end Binary64

end ConfigRender
