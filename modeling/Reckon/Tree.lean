import Reckon.Token

namespace Reckon

inductive Tree where
  | leaf (token : Token)
  | unary (token : Token) (operand : Tree)
  | binary (token : Token) (left right : Tree)
  | rightOnly (token : Token) (right : Tree)
  deriving DecidableEq, Repr

namespace Tree

def token : Tree → Token
  | leaf t | unary t _ | binary t _ _ | rightOnly t _ => t

def left? : Tree → Option Tree
  | unary _ a | binary _ a _ => some a
  | leaf _ | rightOnly _ _ => none

def right? : Tree → Option Tree
  | binary _ _ b | rightOnly _ b => some b
  | leaf _ | unary _ _ => none

/-- The levels of a tree. An operand that lacks the one before it adds no level. -/
def height : Tree → Nat
  | leaf _ => 1
  | unary _ a => a.height + 1
  | binary _ a b => max a.height b.height + 1
  | rightOnly _ _ => 1

def size : Tree → Nat
  | leaf _ => 1
  | unary _ a => a.size + 1
  | binary _ a b => a.size + b.size + 1
  | rightOnly _ b => b.size + 1

/-- A name with nothing attached to it, the only tree that can stand for a function to be
applied. -/
def isBareName : Tree → Bool
  | leaf t => t.kind = .identifier
  | _ => false

def preorder : Tree → List Tree
  | leaf t => [leaf t]
  | unary t a => unary t a :: a.preorder
  | binary t a b => binary t a b :: (a.preorder ++ b.preorder)
  | rightOnly t b => rightOnly t b :: b.preorder

theorem height_pos (t : Tree) : 0 < t.height := by
  cases t <;> simp [height]

end Tree

end Reckon
