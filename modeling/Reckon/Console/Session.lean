import Reckon.Console.Arguments
import Reckon.Console.Input
import Reckon.Evaluation
import Reckon.Symbols.Builtin
import Reckon.Tree.Drawing

namespace Reckon.Console

structure Report where
  code : Nat
  stdout : String
  stderr : String
  deriving DecidableEq, Repr

namespace Report

def silent : Report := ⟨0, "", ""⟩

def before (r s : Report) : Report := ⟨s.code, r.stdout ++ s.stdout, r.stderr ++ s.stderr⟩

end Report

structure Session where
  symbols : Symbols
  options : Options
  showTokens : Bool
  showTree : Bool

namespace Session

def ofArguments (a : Arguments) : Session where
  symbols := if a.has .extended then .extended else .standard
  options := if a.has .lenient then { Options.default with strictness := .lenient } else .default
  showTokens := a.has .tokens
  showTree := a.has .tree

variable (s : Session)

def failed (stdout : String) (e : Error) : Report := ⟨1, stdout, e.message ++ "\n"⟩

/-- One expression. What is shown of its tokens and its tree is shown also if it has no value. -/
def answer (text : String) : Report :=
  let scan := Scan.ofString text
  let tokens := if s.showTokens then scan.display ++ "\n" else ""
  match parse s.options scan with
  | .error e => failed tokens (.syntactic e)
  | .ok t =>
    let shown := tokens ++ if s.showTree then t.draw else ""
    match s.symbols.eval t with
    | .error e => failed shown (.runtime e)
    | .ok v => ⟨0, shown ++ v.display ++ " (" ++ v.kind.name ++ ")\n", ""⟩

/-- The lines of an input. A fault in a line does not end the session; the line that quits does, and
so does a line that is no text. -/
def answerLines : List (List UInt8) → Report
  | [] => .silent
  | line :: rest =>
    match decode? line with
    | none => ⟨1, "", "Failed to read from standard input: stream did not contain valid UTF-8\n"⟩
    | some text =>
      if trim text = ":q" then .silent
      else if trim text = "" then answerLines rest
      else (s.answer (trim text)).before (answerLines rest)

def answerInput (input : List UInt8) : Report := s.answerLines (lines input)

def listing : String :=
  String.join (s.symbols.names.map fun name =>
    match s.symbols.get? name with
    | some (.constant v) => name ++ " = " ++ v.display ++ "\n"
    | some (.function _) => name ++ "/1\n"
    | none => "")

end Session

def versionText : String := "plotexpr 0.1.0\n"

def synopsis : String := "Usage: plotexpr [OPTIONS] [EXPRESSION]\n"

def helpText : String :=
  "plotexpr evaluates arithmetic expressions such as `2pi`, `sin(0)` or `|3-10|*2`\n\n" ++
  synopsis ++ "\n" ++
  "Arguments:\n" ++
  "  [EXPRESSION]  Expression to evaluate. Starts an interactive session when omitted;" ++
  " `:q` leaves it\n\n" ++
  "Options:\n" ++
  "  -l, --lenient   Recover from missing delimiters and operands instead of failing\n" ++
  "  -e, --extended  Use the extended symbol table (tau, sqrt, ln, exp, ...)\n" ++
  "      --tokens    Print the tokens of each expression before evaluating it\n" ++
  "      --tree      Print the parsed tree of each expression before evaluating it\n" ++
  "      --symbols   List the names in the symbol table and exit\n" ++
  "  -h, --help      Print help\n" ++
  "  -V, --version   Print version\n"

def Detour.report : Detour → Report
  | .version => ⟨0, versionText, ""⟩
  | .help => ⟨0, helpText, ""⟩
  | .misuse => ⟨2, "", synopsis⟩

def Arguments.readsInput (a : Arguments) : Bool := !a.has .symbols && a.expression.isNone

def run (args : List String) (input : List UInt8) : Report :=
  match Arguments.read args with
  | .error detour => detour.report
  | .ok a =>
    let s := Session.ofArguments a
    if a.has .symbols then ⟨0, s.listing, ""⟩
    else match a.expression with
      | some text => s.answer text
      | none => s.answerInput input

end Reckon.Console
