import Reckon.Position

namespace Reckon

/-- The part a token plays. A `juxtaposition` is never written: it stands between two operands next
to each other, one of them a name, and is a call or a product according to what the name means. -/
inductive Kind where
  | plus | minus | times | divide | power | bar | ampersand | percent
  | leftParen | rightParen | integer | float | identifier | endOfInput
  | juxtaposition | unclassified
  deriving DecidableEq, Repr

namespace Kind

instance : Inhabited Kind := ⟨unclassified⟩

def name : Kind → String
  | plus => "PLUS"
  | minus => "MIN"
  | times => "MUL"
  | divide => "SLASH"
  | power => "POW"
  | bar => "PIPE"
  | ampersand => "AMPERSAND"
  | percent => "MODULO"
  | leftParen => "LEFT_PAREN"
  | rightParen => "RIGHT_PAREN"
  | integer => "INTEGER"
  | float => "FLOAT"
  | identifier => "IDENTIFIER"
  | endOfInput => "EOF"
  | juxtaposition => "AMBIGUOUS_IDENTIFIER"
  | unclassified => "NONE"

/-- Next to an operand, a token of such a kind starts another one. A sign does not: there it is an
addition or a subtraction. -/
def startsOperand : Kind → Bool
  | leftParen | bar | identifier | integer | float => true
  | _ => false

end Kind

structure Token where
  kind : Kind
  lexeme : String
  size : Nat
  position : Position
  deriving DecidableEq, Repr

namespace Token

def stop (t : Token) : Nat := t.position.offset + t.size

def implied (kind : Kind) (next : Token) : Token := ⟨kind, "", 0, next.position⟩

def finish (p : Position) : Token := ⟨.endOfInput, "", 0, p⟩

def display (t : Token) : String :=
  if t.lexeme.isEmpty then "(" ++ t.kind.name ++ ")"
  else "(" ++ t.kind.name ++ ": " ++ t.lexeme ++ ")"

end Token

end Reckon
