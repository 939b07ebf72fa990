import Reckon.Tree

namespace Reckon.Tree

def hang (head side : String) : List String → List String
  | [] => []
  | line :: rest => (head ++ line) :: rest.map (side ++ ·)

def hangLeft : List String → List String := hang "├──" "│   "

def hangRight : List String → List String := hang "└──" "    "

def lines : Tree → List String
  | leaf t => [t.display]
  | unary t a => t.display :: hangLeft a.lines
  | binary t a b => t.display :: (hangLeft a.lines ++ hangRight b.lines)
  | rightOnly t b => t.display :: hangRight b.lines

/-- A whole tree hangs from a corner of its own, and every line of it is ended. -/
def draw (t : Tree) : String := String.join ((hangRight t.lines).map (· ++ "\n"))

@[simp] theorem length_hang (head side : String) (ls : List String) :
    (hang head side ls).length = ls.length := by
  cases ls <;> simp [hang]

theorem length_lines (t : Tree) : t.lines.length = t.size := by
  induction t with
  | leaf => rfl
  | unary _ _ ih => simp [lines, size, hangLeft, ih]
  | binary _ _ _ iha ihb => simp [lines, size, hangLeft, hangRight, iha, ihb]
  | rightOnly _ _ ih => simp [lines, size, hangRight, ih]

end Reckon.Tree
