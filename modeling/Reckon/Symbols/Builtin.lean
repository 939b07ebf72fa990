import Reckon.Symbols

namespace Reckon.Symbols

def pi : Float := 3.141592653589793

def signOf (x : Float) : Float :=
  if x.isNaN then x else if x == 0.0 then 0.0 else if Binary64.isNegative x then -1.0 else 1.0

def standardNames : List (String × Meaning) := [
  ("pi", .constant (.float pi)),
  ("e", .constant (.float 2.718281828459045)),
  ("sin", .function Float.sin),
  ("cos", .function Float.cos),
  ("tan", .function Float.tan)]

def furtherNames : List (String × Meaning) := [
  ("tau", .constant (.float 6.283185307179586)),
  ("ln", .function Float.log),
  ("exp", .function Float.exp),
  ("sqrt", .function Float.sqrt),
  ("sinh", .function Float.sinh),
  ("cosh", .function Float.cosh),
  ("tanh", .function Float.tanh),
  ("asin", .function Float.asin),
  ("acos", .function Float.acos),
  ("atan", .function Float.atan),
  ("floor", .function Float.floor),
  ("ceil", .function Float.ceil),
  ("round", .function Float.round),
  ("trunc", .function Binary64.truncate),
  ("sign", .function signOf),
  ("radians", .function fun x => x * (pi / 180.0)),
  ("degrees", .function fun x => x * (180.0 / pi))]

def standard : Symbols := empty.defineAll standardNames

def extended : Symbols := standard.defineAll furtherNames

end Reckon.Symbols
