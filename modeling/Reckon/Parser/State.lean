import Reckon.Fault
import Reckon.Tree

namespace Reckon

inductive Strictness where
  | strict | lenient
  deriving DecidableEq, Repr

/-- The limit holds both for operands inside each other and for the height of the tree. -/
structure Options where
  strictness : Strictness
  maxDepth : Nat
  deriving DecidableEq, Repr

namespace Options

def default : Options := ⟨.strict, 256⟩

def isLenient (o : Options) : Bool := o.strictness = .lenient

end Options

namespace Parser

def front (stop : Position) (rest : List Token) : Token := rest.headD (.finish stop)

structure State where
  rest : List Token
  depth : Nat
  /-- The bars open since the last open parenthesis. -/
  bars : Nat
  deriving DecidableEq, Repr

namespace State

def next (stop : Position) (s : State) : Token := front stop s.rest

/-- Whether a token of this kind, next to an operand, starts another. An open bar waits for its
partner, so inside bars the next bar closes. -/
def continues (s : State) : Kind → Bool
  | .bar => s.bars = 0
  | k => k.startsOperand

def deeper (s : State) : State := { s with depth := s.depth + 1 }

def shallower (s : State) : State := { s with depth := s.depth - 1 }

def withBars (n : Nat) (s : State) : State := { s with bars := n }

end State

end Parser

abbrev Parser := EStateM SyntaxError Parser.State

namespace Parser

variable (o : Options) (stop : Position)

def peek : Parser Token := return (← get).next stop

def skip : Parser Unit := modify fun s => { s with rest := s.rest.tail }

def continues (k : Kind) : Parser Bool := return (← get).continues k

def fail {α : Type} (fault : SyntaxFault) (t : Token) : Parser α := throw ⟨fault, t.position⟩

def bounded (t : Tree) : Parser Tree :=
  if t.height ≤ o.maxDepth then return t else fail (.tooDeep o.maxDepth) t.token

/-- Runs `p` in a state of its own, and leaves that state however `p` ends. -/
def within (enter leave : State → State) (p : Parser Tree) : Parser Tree := fun s =>
  match p (enter s) with
  | .ok t s' => .ok t (leave s')
  | .error e s' => .error e (leave s')

def nested (t : Token) (p : Parser Tree) : Parser Tree := do
  if (← get).depth < o.maxDepth then
    within State.deeper State.shallower p
  else
    fail (.tooDeep o.maxDepth) t

def insideBars (p : Parser Tree) : Parser Tree :=
  within (fun s => s.withBars (s.bars + 1)) (fun s => s.withBars (s.bars - 1)) p

/-- Bars around a parenthesis do not count inside it. -/
def outsideBars (p : Parser Tree) : Parser Tree := do
  let around := (← get).bars
  within (State.withBars 0) (State.withBars around) p

def close (opening : Token) (closing : Kind) : Parser Unit := do
  if (← peek stop).kind = closing then skip
  else if o.isLenient then return
  else fail (.unmatchedDelimiter (if opening.kind = .bar then '|' else '(')) opening

variable {o stop}

theorem bind_apply {α β : Type} (p : Parser α) (f : α → Parser β) (s : State) :
    (p >>= f) s = match p s with
      | .ok a s' => f a s'
      | .error e s' => .error e s' := by
  simp only [bind, EStateM.bind]; cases p s <;> rfl

theorem pure_apply {α : Type} (a : α) (s : State) : (pure a : Parser α) s = .ok a s := rfl

theorem ite_apply {α : Type} (c : Prop) [Decidable c] (p q : Parser α) (s : State) :
    (if c then p else q) s = if c then p s else q s := by split <;> rfl

theorem peek_apply (s : State) : peek stop s = .ok (s.next stop) s := rfl

theorem skip_apply (s : State) : skip s = .ok () { s with rest := s.rest.tail } := rfl

theorem continues_apply (k : Kind) (s : State) : continues k s = .ok (s.continues k) s := rfl

theorem fail_apply {α : Type} (fault : SyntaxFault) (t : Token) (s : State) :
    (fail fault t : Parser α) s = .error ⟨fault, t.position⟩ s := rfl

theorem bounded_apply (t : Tree) (s : State) :
    bounded o t s = if t.height ≤ o.maxDepth then .ok t s
      else .error ⟨.tooDeep o.maxDepth, t.token.position⟩ s := by
  unfold bounded; split <;> rfl

theorem nested_apply (t : Token) (p : Parser Tree) (s : State) :
    nested o t p s =
      if s.depth < o.maxDepth then within State.deeper State.shallower p s
      else .error ⟨.tooDeep o.maxDepth, t.position⟩ s := by
  show (if s.depth < o.maxDepth then _ else _ : Parser Tree) s = _
  split <;> rfl

theorem outsideBars_apply (p : Parser Tree) (s : State) :
    outsideBars p s = within (State.withBars 0) (State.withBars s.bars) p s := rfl

theorem close_apply (opening : Token) (closing : Kind) (s : State) :
    close o stop opening closing s =
      if (s.next stop).kind = closing then .ok () { s with rest := s.rest.tail }
      else if o.isLenient then .ok () s
      else .error ⟨.unmatchedDelimiter (if opening.kind = .bar then '|' else '('),
        opening.position⟩ s := by
  show (if (s.next stop).kind = closing then _ else _ : Parser Unit) s = _
  split
  · rfl
  · split <;> rfl

end Parser

end Reckon
