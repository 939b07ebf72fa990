import Reckon.Token.Scan

namespace Reckon

inductive Finding where
  | token (kind : Kind) (run : List Char)
  | unknown (c : Char)
  deriving DecidableEq, Repr

namespace Kind

/-- Digits are an integer, and with a dot and all digits and dots after it a float. The longer of
the two is read. -/
def number (text : List Char) : Kind × List Char :=
  match text.dropWhile Char.isDigit with
  | '.' :: part => (float, text.takeWhile Char.isDigit ++ '.' :: part.takeWhile isNumeral)
  | _ => (integer, text.takeWhile Char.isDigit)

def front? : List Char → Option (Kind × List Char)
  | [] => none
  | c :: cs =>
    if c.isAlpha then some (identifier, (c :: cs).takeWhile Char.isAlpha)
    else if isNumeral c then some (number (c :: cs))
    else (ofSymbol? c).map (·, [c])

end Kind

def isSpacing (c : Char) : Bool := c ∈ [' ', '\t', '\r', '\x0c', '\n']

structure Reader where
  rest : List Char
  offset : Nat
  line : Nat
  lineStart : Nat
  deriving DecidableEq, Repr

namespace Reader

def ofString (text : String) : Reader := ⟨text.toList, 0, 1, 0⟩

def pass (r : Reader) (c : Char) : Reader :=
  if c = '\n' then ⟨r.rest.tail, r.offset + c.utf8Size, r.line + 1, r.offset + c.utf8Size⟩
  else { r with rest := r.rest.tail, offset := r.offset + c.utf8Size }

def passAll (r : Reader) (text : List Char) : Reader := text.foldl pass r

def skip (r : Reader) : Reader := r.passAll (r.rest.takeWhile isSpacing)

def next (r : Reader) : Option (Nat × Finding) × Reader :=
  match r.skip.rest with
  | [] => (none, r.skip)
  | c :: cs =>
    match Kind.front? (c :: cs) with
    | some (kind, run) => (some (r.skip.offset, .token kind run), r.skip.passAll run)
    | none => (some (r.skip.offset, .unknown c), r.skip.pass c)

@[simp] theorem rest_pass (r : Reader) (c : Char) : (r.pass c).rest = r.rest.tail := by
  rw [pass]
  split <;> rfl

theorem rest_passAll (r : Reader) (text : List Char) :
    (r.passAll text).rest = r.rest.drop text.length := by
  induction text generalizing r with
  | nil => rfl
  | cons c text ih => exact (ih (r.pass c)).trans (by rw [rest_pass, List.drop_tail]; rfl)

theorem length_skip_le (r : Reader) : r.skip.rest.length ≤ r.rest.length := by
  rw [skip, rest_passAll, List.length_drop]
  exact Nat.sub_le _ _

theorem length_next_lt {r r' : Reader} {n : Nat} {c : Char}
    (h : r.next = (some (n, .unknown c), r')) : r'.rest.length < r.rest.length := by
  have hs := r.length_skip_le
  rw [next] at h
  split at h
  · cases h
  · next hr =>
      rw [hr, List.length_cons] at hs
      split at h
      · cases h
      · cases h
        rw [rest_pass, hr]
        exact hs

end Reader

/-- Cuts a text before the byte `n`, if a character starts there or the text ends. -/
def cutAt? : List Char → Nat → Option (List Char × List Char)
  | text, 0 => some ([], text)
  | [], _ + 1 => none
  | c :: cs, n + 1 =>
    if c.utf8Size ≤ n + 1 then
      (cutAt? cs (n + 1 - c.utf8Size)).map fun parts => (c :: parts.1, parts.2)
    else none

def between? (text : List Char) (start stop : Nat) : Option (List Char) := do
  let (_, rest) ← cutAt? text start
  if start ≤ stop then
    let (part, _) ← cutAt? rest (stop - start)
    return part
  else none

structure Stream where
  source : String
  reader : Reader
  peeked : Option Token
  done : Bool
  last : Position
  deriving DecidableEq, Repr

namespace Stream

def ofString (text : String) : Stream := ⟨text, .ofString text, none, false, .start⟩

/-- The place of a byte in the line that is read. Columns go on from the last place, if that is
before it in the same line, and else from the start of the line. -/
def locate (s : Stream) (offset : Nat) : Position :=
  let base :=
    if s.last.line ≠ s.reader.line ∨ offset < s.last.offset then
      ⟨s.reader.lineStart, s.reader.line, 1⟩
    else s.last
  let passed := ((between? s.source.toList base.offset offset).map List.length).getD 0
  ⟨offset, base.line, base.column + passed⟩

def reading (s : Stream) (r : Reader) : Stream := { s with reader := r }

def mark (s : Stream) (offset : Nat) : Stream := { s with last := s.locate offset }

def tell (s : Stream) (kind : Kind) (run : List Char) (offset : Nat) : Token × Stream :=
  (⟨kind, String.ofList run, (String.ofList run).utf8ByteSize, s.locate offset⟩, s.mark offset)

def scan (s : Stream) : Token × Stream :=
  match _ : s.reader.next with
  | (none, r) => (s.reading r).tell .endOfInput [] s.source.utf8ByteSize
  | (some (offset, .token kind run), r) => (s.reading r).tell kind run offset
  | (some (offset, .unknown _), r) => scan ((s.reading r).mark offset)
termination_by s.reader.rest.length
decreasing_by exact Reader.length_next_lt ‹_›

section Scan

variable {s : Stream} {r : Reader} {kind : Kind} {run : List Char} {offset : Nat} {c : Char}

theorem scan_finish (h : s.reader.next = (none, r)) :
    s.scan = (s.reading r).tell .endOfInput [] s.source.utf8ByteSize := by
  rw [scan]
  split <;> simp_all

theorem scan_token (h : s.reader.next = (some (offset, .token kind run), r)) :
    s.scan = (s.reading r).tell kind run offset := by
  rw [scan]
  split <;> simp_all

theorem scan_unknown (h : s.reader.next = (some (offset, .unknown c), r)) :
    s.scan = ((s.reading r).mark offset).scan := by
  rw [scan]
  split <;> simp_all

end Scan

def peek (s : Stream) : Token × Stream :=
  match s.peeked with
  | some t => (t, s)
  | none => (s.scan.1, { s.scan.2 with peeked := some s.scan.1 })

def next (s : Stream) : Token × Stream :=
  match s.peeked with
  | some t => (t, { s with peeked := none })
  | none => s.scan

def atEnd (s : Stream) : Bool × Stream := (s.peek.1.kind = .endOfInput, s.peek.2)

def iterate (s : Stream) : Option Token × Stream :=
  if s.done then (none, s)
  else (some s.next.1, { s.next.2 with done := s.next.1.kind = .endOfInput })

end Stream

end Reckon
