namespace Reckon.Console

def lines (bytes : List UInt8) : List (List UInt8) :=
  bytes.foldr (fun b ls =>
    if b = 10 then [] :: ls
    else match ls with
      | [] => [[b]]
      | line :: rest => (b :: line) :: rest) []

def decode? (line : List UInt8) : Option String := String.fromUTF8? ⟨line.toArray⟩

/-- The characters with the White_Space property. -/
def isBlank (c : Char) : Bool :=
  let n := c.toNat
  (9 ≤ n && n ≤ 13) || n = 0x20 || n = 0x85 || n = 0xA0 || n = 0x1680 ||
    (0x2000 ≤ n && n ≤ 0x200A) || n = 0x2028 || n = 0x2029 || n = 0x202F || n = 0x205F || n = 0x3000

def trim (text : String) : String :=
  String.ofList ((text.toList.dropWhile isBlank).reverse.dropWhile isBlank).reverse

end Reckon.Console
