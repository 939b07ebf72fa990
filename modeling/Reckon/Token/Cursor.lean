import Reckon.Token.Scan

namespace Reckon

structure Cursor where
  source : String
  rest : List Token
  stop : Position
  done : Bool

namespace Cursor

def ofString (text : String) : Cursor :=
  ⟨text, (Scan.ofString text).tokens, (Scan.ofString text).stop, false⟩

def peek (c : Cursor) : Token := c.rest.headD (.finish c.stop)

def atEnd (c : Cursor) : Bool := c.rest.isEmpty

def next (c : Cursor) : Token × Cursor := (c.peek, { c with rest := c.rest.tail })

/-- One step of iteration. Only iteration itself marks the end as handed out: after `next` has
reached it, the next step still gives it. -/
def iterate (c : Cursor) : Option Token × Cursor :=
  if c.done then (none, c)
  else (some c.peek, { c with rest := c.rest.tail, done := c.atEnd })

end Cursor

end Reckon
