import Reckon.Parser.State
import Reckon.Token.Scan

namespace Reckon.Parser

/-- The rules of the grammar. A chain has its operands so far in `left`. -/
inductive Rule where
  | expression
  | sum (left : Tree)
  | term
  | product (left : Tree)
  | power
  | application
  | factor

def productSign (stop : Position) : Parser (Option Token) := do
  let next ← peek stop
  if next.kind = .times ∨ next.kind = .divide then
    skip
    return some next
  else if ← continues next.kind then
    return some (.implied (if next.kind = .identifier then .juxtaposition else .times) next)
  else
    return none

variable (o : Options) (stop : Position)

def operand (again : Rule → Parser Tree) (t : Token) : Parser Tree :=
  match t.kind with
  | .leftParen => do
    skip
    let inner ← outsideBars (again .expression)
    close o stop t .rightParen
    return inner
  | .bar => do
    skip
    let inner ← insideBars (again .expression)
    close o stop t .bar
    bounded o (.unary t inner)
  | .plus | .minus => do
    skip
    bounded o (.unary t (← again .application))
  | .identifier | .integer | .float => do
    skip
    return .leaf t
  | .endOfInput => if o.isLenient then return .leaf t else fail .unexpectedEnd t
  | _ => fail (.unexpectedToken t.lexeme) t

def rule (again : Rule → Parser Tree) : Rule → Parser Tree
  | .expression => do
    again (.sum (← again .term))
  | .sum left => do
    let op ← peek stop
    if op.kind = .plus ∨ op.kind = .minus then
      skip
      let right ← again .term
      again (.sum (← bounded o (.binary op left right)))
    else
      return left
  | .term => do
    again (.product (← again .power))
  | .product left => do
    match ← productSign stop with
    | some op =>
      let right ← again .power
      again (.product (← bounded o (.binary op left right)))
    | none => return left
  | .power => do
    let base ← again .application
    let op ← peek stop
    if op.kind = .power then
      skip
      let exponent ← nested o op (again .power)
      bounded o (.binary op base exponent)
    else
      return base
  | .application => do
    let callee ← again .factor
    let next ← peek stop
    if callee.isBareName && (← continues next.kind) then
      let argument ← nested o next (again .application)
      bounded o (.binary (.implied .juxtaposition next) callee argument)
    else
      return callee
  | .factor => do
    let t ← peek stop
    nested o t (operand o stop again t)

def Rule.rank : Rule → Nat
  | factor => 0
  | application => 1
  | power => 2
  | product _ => 3
  | term => 4
  | sum _ => 5
  | expression => 6

/-- What gets smaller from a rule to the rules it uses: the tokens left, and among rules that leave
them alone, the rank. -/
def Rule.weight (r : Rule) (s : State) : Nat := 8 * s.rest.length + r.rank

def runUpTo : Nat → Rule → Parser Tree
  | 0, _ => fail .unexpectedEnd (.finish stop)
  | n + 1, r => rule o stop (runUpTo n) r

/-- Reads by a rule. The weight is depth enough, so that the rules hold of `run` without any limit
(`run_eq`). -/
def run (r : Rule) : Parser Tree := fun s => runUpTo o stop (r.weight s + 1) r s

end Reckon.Parser

namespace Reckon

/-- The tree of a whole text. The empty text has its end for a tree, however strict the parser. -/
def parse (o : Options) (scan : Scan) : Except SyntaxError Tree :=
  match scan.tokens with
  | [] => .ok (.leaf scan.finish)
  | tokens =>
    match Parser.run o scan.stop .expression ⟨tokens, 0, 0⟩ with
    | .error e _ => .error e
    | .ok t s =>
      match s.rest with
      | [] => .ok t
      | next :: _ =>
        if o.isLenient then .ok t else .error ⟨.trailingTokens next.lexeme, next.position⟩

end Reckon
