import Reckon.Number.Decimal

namespace Reckon.Literal

def sign : List Char → Bool × List Char
  | '-' :: cs => (true, cs)
  | '+' :: cs => (false, cs)
  | cs => (false, cs)

def exponent? : List Char → Option Int
  | [] => some 0
  | e :: cs =>
    let (negative, digits) := sign cs
    if (e = 'e' ∨ e = 'E') ∧ digits ≠ [] ∧ digits.all Char.isDigit then
      some (if negative then -Nat.ofDigitChars 10 digits 0 else Nat.ofDigitChars 10 digits 0)
    else none

def fraction : List Char → List Char × List Char
  | '.' :: cs => (cs.takeWhile Char.isDigit, cs.dropWhile Char.isDigit)
  | cs => ([], cs)

def decimal? (cs : List Char) : Option Decimal :=
  let whole := cs.takeWhile Char.isDigit
  let (part, rest) := fraction (cs.dropWhile Char.isDigit)
  if whole ++ part = [] then none
  else (exponent? rest).map fun e => ⟨Nat.ofDigitChars 10 (whole ++ part) 0, e - part.length⟩

def named? (cs : List Char) : Option Nat :=
  let name := String.ofList (cs.map Char.toLower)
  if name = "inf" ∨ name = "infinity" then some Binary64.infinity
  else if name = "nan" then some (Binary64.infinity + Nat.pow 2 51)
  else none

def read? (text : String) : Option Float :=
  let (negative, cs) := sign text.toList
  (((decimal? cs).map Decimal.rank).or (named? cs)).map (Binary64.ofRank negative)

end Reckon.Literal
