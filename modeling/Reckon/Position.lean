namespace Reckon

structure Position where
  offset : Nat
  line : Nat
  column : Nat
  deriving DecidableEq, Repr

namespace Position

def start : Position := ⟨0, 1, 1⟩

/-- A line feed opens the next line; any other character takes one column, however many bytes
it has. -/
def after (p : Position) (c : Char) : Position :=
  if c = '\n' then ⟨p.offset + c.utf8Size, p.line + 1, 1⟩
  else ⟨p.offset + c.utf8Size, p.line, p.column + 1⟩

def advance (p : Position) (text : List Char) : Position := text.foldl after p

@[simp] theorem advance_nil (p : Position) : p.advance [] = p := rfl

@[simp] theorem advance_cons (p : Position) (c : Char) (text : List Char) :
    p.advance (c :: text) = (p.after c).advance text := rfl

theorem advance_append (p : Position) (s t : List Char) :
    p.advance (s ++ t) = (p.advance s).advance t := List.foldl_append

end Position

end Reckon
