namespace Reckon.Binary64

def infinity : Nat := 2047 * Nat.pow 2 52

def unitsPerOne : Nat := Nat.pow 2 1074

/-- The double of a rank below infinity, in units. Up to `2 ^ 53` units all numbers are doubles;
from there on each octave has `2 ^ 52` of them. -/
def units (rank : Nat) : Nat :=
  if rank < Nat.pow 2 52 then rank
  else (Nat.pow 2 52 + rank % Nat.pow 2 52) * Nat.pow 2 (rank / Nat.pow 2 52 - 1)

def halfEven (num den : Nat) : Nat :=
  let q := num / den
  if 2 * (num % den) < den then q
  else if 2 * (num % den) = den then q + q % 2
  else q + 1

/-- The rank of the double next to `num / den`; half-way, the even one. Rounding up to the end of an
octave gives the first rank of the next one, and past the last octave comes infinity. -/
def nearest (num den : Nat) : Nat :=
  let scaled := num * unitsPerOne
  let octave := (scaled / den).log2 - 52
  min infinity (octave * Nat.pow 2 52 + halfEven scaled (den * Nat.pow 2 octave))

def rank (x : Float) : Nat := x.toBits.toNat % Nat.pow 2 63

def isNegative (x : Float) : Bool := Nat.pow 2 63 ≤ x.toBits.toNat

def ofRank (negative : Bool) (rank : Nat) : Float :=
  .ofBits (.ofNat (if negative then Nat.pow 2 63 + rank else rank))

def truncate (x : Float) : Float :=
  if rank x < infinity then ofRank (isNegative x) (nearest (units (rank x) / unitsPerOne) 1) else x

end Reckon.Binary64
