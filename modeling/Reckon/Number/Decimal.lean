import Reckon.Number.Binary64

namespace Reckon

structure Decimal where
  digits : Nat
  exponent : Int
  deriving DecidableEq, Repr

namespace Decimal

/-- The rank of the double next to a decimal. Powers of ten are not worked out where the answer is
plain: `10 ^ 400` is far above the last double, and a number below `2 ^ -1100` far below the
first. -/
def rank (d : Decimal) : Nat :=
  if d.digits = 0 then 0
  else match d.exponent with
    | .ofNat n => if 400 ≤ n then Binary64.infinity else Binary64.nearest (d.digits * Nat.pow 10 n) 1
    | .negSucc n =>
      if d.digits.log2 + 1100 < 3 * n then 0 else Binary64.nearest d.digits (Nat.pow 10 (n + 1))

def padded (width n : Nat) : List Char :=
  List.replicate (width - (Nat.toDigits 10 n).length) '0' ++ Nat.toDigits 10 n

def write (d : Decimal) : List Char :=
  match d.exponent with
  | .ofNat n => Nat.toDigits 10 (d.digits * Nat.pow 10 n)
  | .negSucc n =>
    Nat.toDigits 10 (d.digits / Nat.pow 10 (n + 1)) ++
      '.' :: padded (n + 1) (d.digits % Nat.pow 10 (n + 1))

/-- Of the two multiples of `10 ^ exponent` around the double of a rank, the ones that round back to
it; of two, the nearer; of two as near, the upper. -/
def onGrid? (rank : Nat) (exponent : Int) : Option Decimal :=
  let num := Binary64.units rank * Nat.pow 10 (-exponent).toNat
  let den := Binary64.unitsPerOne * Nat.pow 10 exponent.toNat
  let below : Decimal := ⟨num / den, exponent⟩
  let above : Decimal := ⟨num / den + 1, exponent⟩
  if below.rank = rank ∧ (above.rank ≠ rank ∨ 2 * (num % den) < den) then some below
  else if above.rank = rank then some above
  else none

def exact (rank : Nat) : Decimal := ⟨Binary64.units rank * Nat.pow 5 1074, -1074⟩

/-- The decimal with the fewest digits that rounds to the double of a rank: the first hit on grids
from one coarser than the whole number to the finest, where the double itself is a point. -/
def shortest (rank : Nat) : Decimal :=
  let top := (Nat.toDigits 10 (Binary64.units rank / Binary64.unitsPerOne)).length
  ((List.range (top + 1074)).findSome? fun (i : Nat) => onGrid? rank (top - i)).getD (exact rank)

end Decimal

end Reckon
