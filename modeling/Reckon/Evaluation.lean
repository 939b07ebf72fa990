import Reckon.Number.Literal
import Reckon.Parser
import Reckon.Symbols

namespace Reckon

namespace Kind

def unary? (sign : Kind) (x : Value) : Option Value :=
  match sign with
  | plus => some (.computed x.number)
  | minus => some (.computed (-x.number))
  | _ => none

/-- Of two values, a juxtaposition is the product. -/
def binary? (op : Kind) (x y : Value) : Option Value :=
  match op with
  | plus => some (.computed (x.number + y.number))
  | minus => some (.computed (x.number - y.number))
  | times | juxtaposition => some (.computed (x.number * y.number))
  | divide => some (.computed (x.number / y.number))
  | power => some (.computed (x.number.pow y.number))
  | _ => none

end Kind

namespace Token

def literal (t : Token) : Except EvalError Value :=
  match Literal.read? t.lexeme with
  | some x => .ok (if t.kind = .float then .float x else .integer x)
  | none => .error ⟨.invalidLiteral t.lexeme, t.position⟩

def unknown {α : Type} (t : Token) : Except EvalError α :=
  .error ⟨.unknownExpression t.display, t.position⟩

end Token

namespace Symbols

variable (s : Symbols)

def named (t : Token) (operand : Option (Except EvalError Value)) : Except EvalError Value :=
  match s.get? t.lexeme, operand with
  | some (.constant v), _ => .ok v
  | some (.function f), some x => x.map fun v => .float (f v.number)
  | some (.function _), none => .error ⟨.missingArgument t.lexeme, t.position⟩
  | none, _ => .error ⟨.unknownName t.lexeme, t.position⟩

def alone (t : Token) : Except EvalError Value :=
  match t.kind with
  | .integer | .float => t.literal
  | .identifier => s.named t none
  | .endOfInput => .ok (.integer 0.0)
  | _ => t.unknown

def function? (callee : Tree) : Option (Float → Float) :=
  if callee.isBareName then
    match s.get? callee.token.lexeme with
    | some (.function f) => some f
    | _ => none
  else none

def eval : Tree → Except EvalError Value
  | .leaf t | .rightOnly t _ => s.alone t
  | .unary t a =>
    match t.kind with
    | .plus | .minus => do
      let x ← eval a
      ((t.kind.unary? x).map .ok).getD t.unknown
    | .bar => do
      let x ← eval a
      return .computed x.number.abs
    | .times | .divide | .power => do
      let _ ← eval a
      t.unknown
    | .identifier => s.named t (some (eval a))
    | _ => s.alone t
  | .binary t a b =>
    match t.kind with
    | .plus | .minus | .times | .divide | .power => do
      let x ← eval a
      let y ← eval b
      ((t.kind.binary? x y).map .ok).getD t.unknown
    | .juxtaposition =>
      match s.function? a with
      | some f => do
        let y ← eval b
        return .float (f y.number)
      | none => do
        let x ← eval a
        let y ← eval b
        return .computed (x.number * y.number)
    | .bar => do
      let x ← eval a
      return .computed x.number.abs
    | .identifier => s.named t (some (eval a))
    | _ => s.alone t

end Symbols

def evaluate (o : Options) (s : Symbols) (text : String) : Except Error Value :=
  match parse o (.ofString text) with
  | .error e => .error (.syntactic e)
  | .ok t =>
    match s.eval t with
    | .error e => .error (.runtime e)
    | .ok v => .ok v

end Reckon
