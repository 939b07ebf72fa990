import Reckon.Token

namespace Reckon

inductive SyntaxFault where
  | unexpectedToken (lexeme : String)
  | unexpectedEnd
  | unmatchedDelimiter (opening : Char)
  | trailingTokens (lexeme : String)
  | tooDeep (limit : Nat)
  deriving DecidableEq, Repr

inductive EvalFault where
  | unknownName (name : String)
  | invalidLiteral (literal : String)
  | missingArgument (name : String)
  | unknownExpression (node : String)
  deriving DecidableEq, Repr

namespace SyntaxFault

def message : SyntaxFault → String
  | unexpectedToken lexeme => "Unexpected token: " ++ lexeme ++ "."
  | unexpectedEnd => "Unexpected end of input."
  | unmatchedDelimiter opening => "Delimiter '" ++ opening.toString ++ "' is never closed."
  | trailingTokens lexeme => "Extra tokens after expression. Check your input: " ++ lexeme
  | tooDeep limit => "Expression is nested deeper than " ++ toString limit ++ " levels."

end SyntaxFault

namespace EvalFault

def message : EvalFault → String
  | unknownName name => "Unknown identifier '" ++ name ++ "'."
  | invalidLiteral literal => "Invalid numeric literal '" ++ literal ++ "'."
  | missingArgument name => "Function '" ++ name ++ "' is missing its argument."
  | unknownExpression node => "Expression is unknown: " ++ node ++ "."

end EvalFault

structure SyntaxError where
  fault : SyntaxFault
  position : Position
  deriving DecidableEq, Repr

structure EvalError where
  fault : EvalFault
  position : Position
  deriving DecidableEq, Repr

inductive Error where
  | syntactic (error : SyntaxError)
  | runtime (error : EvalError)
  deriving DecidableEq, Repr

namespace Error

def position : Error → Position
  | syntactic e => e.position
  | runtime e => e.position

def faultMessage : Error → String
  | syntactic e => e.fault.message
  | runtime e => e.fault.message

def message (e : Error) : String :=
  "Error on line " ++ toString e.position.line ++ ", column " ++ toString e.position.column ++
    ": " ++ e.faultMessage

end Error

end Reckon
