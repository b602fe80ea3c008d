import ConfigRender.Number.Binary64

/-! # Shortest decimals

The decimal with the fewest digits that rounds back to a number; among those of equal
length the one nearest to it.  The numbers that round to a word form an interval whose
ends count exactly when the significand is even, and each grid of decimals needs to be
tried only at the two neighbours of the number.
-/

namespace ConfigRender.Number

/-- The decimal `digits * 10 ^ exponent`. -/
structure Decimal where
  digits : Nat
  exponent : Int
deriving DecidableEq

/-- Which neighbour is taken when a number lies halfway between two decimals. -/
inductive Tie where
  | toEven
  | up
deriving DecidableEq

/-- A power of ten as a quotient of naturals. -/
def tenPower (k : Int) : Nat × Nat :=
  if 0 ≤ k then (Nat.pow 10 k.toNat, 1) else (1, Nat.pow 10 (-k).toNat)

/-- A number with the interval of reals that round to it, all counted in the quotient
`unit`; the ends belong to it when `closed` holds. -/
structure Window where
  low : Nat
  value : Nat
  high : Nat
  unit : Nat × Nat
  closed : Bool

/-- The interval of a finite number other than zero, in quarters of its unit.  Below a
power of two the words lie twice as close. -/
def Window.of (d : Binary64) : Window where
  low := 4 * d.significand - if d.fraction = 0 ∧ 1 < d.exponentField then 1 else 2
  value := 4 * d.significand
  high := 4 * d.significand + 2
  unit :=
    let scale := d.scale - 2
    if 0 ≤ scale then (Nat.pow 2 scale.toNat, 1) else (1, Nat.pow 2 (-scale).toNat)
  closed := d.significand % 2 = 0

namespace Window

/-- Whether `count * 10 ^ k` rounds to the number. -/
def holds (w : Window) (k : Int) (count : Nat) : Bool :=
  let here := count * (tenPower k).1 * w.unit.2
  let at_ (x : Nat) := x * w.unit.1 * (tenPower k).2
  if w.closed then at_ w.low ≤ here ∧ here ≤ at_ w.high
  else at_ w.low < here ∧ here < at_ w.high

/-- The nearest multiple of `10 ^ k` that rounds to the number, if there is one. -/
def onGrid (w : Window) (tie : Tie) (k : Int) : Option Nat :=
  let value := w.value * w.unit.1 * (tenPower k).2
  let step := (tenPower k).1 * w.unit.2
  let below := value / step
  match w.holds k below, w.holds k (below + 1) with
  | true, true =>
    let middle := (2 * below + 1) * step
    if 2 * value < middle then some below
    else if middle < 2 * value then some (below + 1)
    else match tie with
      | .up => some (below + 1)
      | .toEven => some (if below % 2 = 0 then below else below + 1)
  | true, false => some below
  | false, true => some (below + 1)
  | false, false => none

/-- How many digits the number has before the point: the least `p` with the number below
`10 ^ p`, searched around the estimate from the binary length. -/
def point (w : Window) : Int :=
  let num := w.value * w.unit.1
  let estimate : Int := ((num.log2 : Int) - w.unit.2.log2) * 30103 / 100000
  let below (p : Int) : Bool := num * (tenPower p).2 < (tenPower p).1 * w.unit.2
  ([estimate - 1, estimate, estimate + 1].find? below).getD (estimate + 2)

/-- The first grid with a hit, from one digit on; seventeen digits always suffice. -/
def search (w : Window) (tie : Tie) (point : Int) : Nat → Nat → Decimal
  | _, 0 => ⟨0, 0⟩
  | length, fuel + 1 =>
    match w.onGrid tie (point - length) with
    | some 10 => ⟨1, point - length + 1⟩
    | some count => ⟨count, point - length⟩
    | none => search w tie point (length + 1) fuel

end Window

/-- The shortest decimal of a finite number other than zero. -/
def shortest (tie : Tie) (d : Binary64) : Decimal :=
  let w := Window.of d
  w.search tie w.point 1 17

end ConfigRender.Number
