import Reckon.Value
import Std.Data.TreeMap.Lemmas

namespace Reckon

inductive Meaning where
  | constant (value : Value)
  | function (apply : Float → Float)

structure Symbols where
  entries : Std.TreeMap String Meaning

namespace Symbols

def empty : Symbols := ⟨∅⟩

def define (s : Symbols) (name : String) (m : Meaning) : Symbols := ⟨s.entries.insert name m⟩

def defineAll (s : Symbols) (definitions : List (String × Meaning)) : Symbols :=
  definitions.foldl (fun s d => s.define d.1 d.2) s

def get? (s : Symbols) (name : String) : Option Meaning := s.entries.get? name

def contains (s : Symbols) (name : String) : Bool := s.entries.contains name

def size (s : Symbols) : Nat := s.entries.size

def isEmpty (s : Symbols) : Bool := s.entries.isEmpty

/-- The names in the order of their characters, which is that of their bytes. -/
def names (s : Symbols) : List String := s.entries.keys

theorem get?_define (s : Symbols) (name other : String) (m : Meaning) :
    (s.define name m).get? other = if name = other then some m else s.get? other := by
  show (s.entries.insert name m)[other]? = if name = other then some m else s.entries[other]?
  simp only [Std.TreeMap.getElem?_insert, Std.LawfulEqCmp.compare_eq_iff_eq]

theorem get?_defineAll_of_forall_ne (s : Symbols) {definitions : List (String × Meaning)}
    {name : String} (h : ∀ d ∈ definitions, d.1 ≠ name) :
    (s.defineAll definitions).get? name = s.get? name := by
  induction definitions generalizing s with
  | nil => rfl
  | cons d ds ih =>
      rw [List.forall_mem_cons] at h
      calc ((s.define d.1 d.2).defineAll ds).get? name
          _ = (s.define d.1 d.2).get? name := ih _ h.2
          _ = s.get? name := by rw [get?_define, if_neg h.1]

end Symbols

end Reckon
