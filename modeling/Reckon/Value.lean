import Reckon.Number.Decimal

namespace Reckon

inductive NumberKind where
  | integer | float
  deriving DecidableEq, Repr

namespace NumberKind

/-- What has no fraction is an integer, whatever it was computed from. Infinities differ from
themselves by what is no number. -/
def ofFloat (x : Float) : NumberKind := if x - Binary64.truncate x != 0.0 then float else integer

def name : NumberKind → String
  | integer => "integer"
  | float => "float"

end NumberKind

structure Value where
  number : Float
  kind : NumberKind

namespace Value

def integer (x : Float) : Value := ⟨x, .integer⟩

def float (x : Float) : Value := ⟨x, .float⟩

def computed (x : Float) : Value := ⟨x, .ofFloat x⟩

def writeRank (rank : Nat) : String :=
  if rank = 0 then "0"
  else if rank < Binary64.infinity then String.ofList (Decimal.shortest rank).write
  else if rank = Binary64.infinity then "inf"
  else "NaN"

def writeFloat (x : Float) : String :=
  if Binary64.isNegative x && Binary64.rank x ≤ Binary64.infinity then
    "-" ++ writeRank (Binary64.rank x)
  else writeRank (Binary64.rank x)

def display (v : Value) : String :=
  if v.kind = .integer ∧ Binary64.rank v.number = 0 then "0" else writeFloat v.number

end Value

end Reckon
