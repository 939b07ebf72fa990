namespace Reckon.Console

inductive Flag where
  | lenient | extended | tokens | tree | symbols
  deriving DecidableEq, Repr

inductive Detour where
  | version | help | misuse
  deriving DecidableEq, Repr

inductive Switch where
  | flag (flag : Flag)
  | detour (detour : Detour)
  deriving DecidableEq, Repr

namespace Switch

def ofName : String → Switch
  | "lenient" => flag .lenient
  | "extended" => flag .extended
  | "tokens" => flag .tokens
  | "tree" => flag .tree
  | "symbols" => flag .symbols
  | "version" => detour .version
  | "help" => detour .help
  | _ => detour .misuse

def ofLetter : Char → Switch
  | 'l' => flag .lenient
  | 'e' => flag .extended
  | 'V' => detour .version
  | 'h' => detour .help
  | _ => detour .misuse

end Switch

structure Arguments where
  flags : List Flag
  expression : Option String
  deriving DecidableEq, Repr

namespace Arguments

def none : Arguments := ⟨[], .none⟩

def has (a : Arguments) (f : Flag) : Bool := f ∈ a.flags

def switch (a : Arguments) : Switch → Except Detour Arguments
  | .flag f => if a.has f then .error .misuse else .ok { a with flags := f :: a.flags }
  | .detour d => .error d

def operand (a : Arguments) (text : String) : Except Detour Arguments :=
  if a.expression.isSome then .error .misuse else .ok { a with expression := some text }

/-- A hyphen by itself is an expression; before letters it makes a switch of each, and two make one
of a name. -/
def add (a : Arguments) (arg : String) : Except Detour Arguments :=
  match arg.toList with
  | '-' :: '-' :: name => a.switch (.ofName (String.ofList name))
  | '-' :: letter :: letters => (letter :: letters).foldlM (fun a c => a.switch (.ofLetter c)) a
  | _ => a.operand arg

/-- After two hyphens everything is an expression. -/
def addAll (a : Arguments) : List String → Except Detour Arguments
  | [] => .ok a
  | arg :: args => if arg = "--" then args.foldlM operand a else do (← a.add arg).addAll args

def read (args : List String) : Except Detour Arguments := none.addAll args

end Arguments

end Reckon.Console
