import Reckon.Token

namespace Reckon

def isNumeral (c : Char) : Bool := c.isDigit || c == '.'

def joins (a b : Char) : Bool := a.isAlpha && b.isAlpha || isNumeral a && isNumeral b

def runs (text : List Char) : List (List Char) := text.splitBy joins

namespace Kind

def ofSymbol? : Char → Option Kind
  | '+' => some plus
  | '-' => some minus
  | '*' => some times
  | '/' => some divide
  | '^' => some power
  | '|' => some bar
  | '&' => some ampersand
  | '%' => some percent
  | '(' => some leftParen
  | ')' => some rightParen
  | _ => none

/-- One dot, wherever it stands, makes a number a `float`. -/
def ofRun? : List Char → Option Kind
  | [] => none
  | c :: cs =>
    if c.isAlpha then some identifier
    else if isNumeral c then some (if '.' ∈ c :: cs then float else integer)
    else ofSymbol? c

end Kind

namespace Token

def ofRun? (p : Position) (run : List Char) : Option Token :=
  (Kind.ofRun? run).map fun kind =>
    ⟨kind, String.ofList run, (String.ofList run).utf8ByteSize, p⟩

def ofRuns (p : Position) : List (List Char) → List Token
  | [] => []
  | run :: rest => (ofRun? p run).toList ++ ofRuns (p.advance run) rest

end Token

structure Scan where
  tokens : List Token
  stop : Position
  deriving DecidableEq, Repr

namespace Scan

def ofString (text : String) : Scan where
  tokens := Token.ofRuns .start (runs text.toList)
  stop := Position.start.advance text.toList

def finish (s : Scan) : Token := .finish s.stop

def toList (s : Scan) : List Token := s.tokens ++ [s.finish]

def display (s : Scan) : String := " ".intercalate (s.toList.map Token.display)

end Scan

end Reckon
