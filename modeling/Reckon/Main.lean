import Reckon.Console.Session

open Reckon.Console

def main (args : List String) : IO UInt32 := do
  let reads := match Arguments.read args with
    | .ok a => a.readsInput
    | .error _ => false
  let input ← if reads then (← IO.getStdin).readBinToEnd else pure ByteArray.empty
  let report := run args input.toList
  IO.print report.stdout
  IO.eprint report.stderr
  return UInt32.ofNat report.code
