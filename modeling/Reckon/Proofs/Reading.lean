import Reckon.Parser.Progress

namespace Reckon.Parser

@[simp] theorem front_cons (stop : Position) (t : Token) (ts : List Token) :
    front stop (t :: ts) = t := rfl

theorem exists_cons {stop : Position} {ts : List Token}
    (h : (front stop ts).kind ≠ .endOfInput) : ∃ t ts₁, ts = t :: ts₁ := by
  cases ts with
  | nil => exact absurd rfl h
  | cons t ts => exact ⟨t, ts, rfl⟩

inductive Context where
  | plain | bars
  deriving DecidableEq, Repr

namespace Context

def ofBars : Nat → Context
  | 0 => plain
  | _ + 1 => bars

def joins : Context → Kind → Bool
  | bars, .bar => false
  | _, k => k.startsOperand

end Context

theorem joins_ne_end {c : Context} {k : Kind} (h : c.joins k = true) : k ≠ .endOfInput := by
  rintro rfl
  cases c <;> simp [Context.joins, Kind.startsOperand] at h

theorem continues_eq_joins (ts : List Token) (d b : Nat) (k : Kind) :
    State.continues ⟨ts, d, b⟩ k = (Context.ofBars b).joins k := by
  cases b <;> cases k <;> simp [State.continues, Context.ofBars, Context.joins, Kind.startsOperand]

variable (o : Options) (stop : Position)

/-- The operator that nobody wrote, in front of an operand. -/
def between (next : Token) : Token :=
  .implied (if next.kind = .identifier then .juxtaposition else .times) next

inductive Signed (c : Context) : List Token → Token → List Token → Prop
  | written {op ts} (h : op.kind = .times ∨ op.kind = .divide) : Signed c (op :: ts) op ts
  | adjacent {next ts} (h : c.joins next.kind = true) :
      Signed c (next :: ts) (between next) (next :: ts)

inductive Closes (k : Kind) : List Token → Option Token → List Token → Prop
  | written {t ts} (h : t.kind = k) : Closes k (t :: ts) (some t) ts
  | assumed {ts} (hl : o.isLenient = true) (h : (front stop ts).kind ≠ k) : Closes k ts none ts

/-- How a rule succeeds, at a depth and in a context: the tokens before, the tree, and the tokens
after. -/
inductive Reads : Rule → Nat → Context → List Token → Tree → List Token → Prop
  | expression {d c ts ts₁ ts₂ t u} (first : Reads .term d c ts t ts₁)
      (more : Reads (.sum t) d c ts₁ u ts₂) : Reads .expression d c ts u ts₂
  | sumEnd {d c ts l} (h : ¬((front stop ts).kind = .plus ∨ (front stop ts).kind = .minus)) :
      Reads (.sum l) d c ts l ts
  | sumStep {d c op ts ts₁ ts₂ l t u} (hop : op.kind = .plus ∨ op.kind = .minus)
      (right : Reads .term d c ts t ts₁) (hh : (Tree.binary op l t).height ≤ o.maxDepth)
      (more : Reads (.sum (.binary op l t)) d c ts₁ u ts₂) : Reads (.sum l) d c (op :: ts) u ts₂
  | term {d c ts ts₁ ts₂ t u} (first : Reads .power d c ts t ts₁)
      (more : Reads (.product t) d c ts₁ u ts₂) : Reads .term d c ts u ts₂
  | productEnd {d c ts l}
      (h : ¬((front stop ts).kind = .times ∨ (front stop ts).kind = .divide))
      (hj : c.joins (front stop ts).kind = false) : Reads (.product l) d c ts l ts
  | productStep {d c op ts ts₀ ts₁ ts₂ l t u} (sign : Signed c ts op ts₀)
      (right : Reads .power d c ts₀ t ts₁) (hh : (Tree.binary op l t).height ≤ o.maxDepth)
      (more : Reads (.product (.binary op l t)) d c ts₁ u ts₂) : Reads (.product l) d c ts u ts₂
  | power {d c ts ts₁ t} (base : Reads .application d c ts t ts₁)
      (h : (front stop ts₁).kind ≠ .power) : Reads .power d c ts t ts₁
  | raised {d c op ts ts₁ ts₂ t u} (base : Reads .application d c ts t (op :: ts₁))
      (hop : op.kind = .power) (hd : d < o.maxDepth) (exponent : Reads .power (d + 1) c ts₁ u ts₂)
      (hh : (Tree.binary op t u).height ≤ o.maxDepth) : Reads .power d c ts (.binary op t u) ts₂
  | application {d c ts ts₁ t} (callee : Reads .factor d c ts t ts₁)
      (h : (t.isBareName && c.joins (front stop ts₁).kind) = false) :
      Reads .application d c ts t ts₁
  | applied {d c next ts ts₁ ts₂ t u} (callee : Reads .factor d c ts t (next :: ts₁))
      (ht : t.isBareName = true) (hj : c.joins next.kind = true) (hd : d < o.maxDepth)
      (argument : Reads .application (d + 1) c (next :: ts₁) u ts₂)
      (hh : (Tree.binary (.implied .juxtaposition next) t u).height ≤ o.maxDepth) :
      Reads .application d c ts (.binary (.implied .juxtaposition next) t u) ts₂
  | parens {d c t ts ts₁ ts₂ a k} (ht : t.kind = .leftParen) (hd : d < o.maxDepth)
      (inner : Reads .expression (d + 1) .plain ts a ts₁)
      (closes : Closes o stop .rightParen ts₁ k ts₂) : Reads .factor d c (t :: ts) a ts₂
  | bars {d c t ts ts₁ ts₂ a k} (ht : t.kind = .bar) (hd : d < o.maxDepth)
      (inner : Reads .expression (d + 1) .bars ts a ts₁) (closes : Closes o stop .bar ts₁ k ts₂)
      (hh : (Tree.unary t a).height ≤ o.maxDepth) : Reads .factor d c (t :: ts) (.unary t a) ts₂
  | sign {d c t ts ts₁ a} (ht : t.kind = .plus ∨ t.kind = .minus) (hd : d < o.maxDepth)
      (operand : Reads .application (d + 1) c ts a ts₁)
      (hh : (Tree.unary t a).height ≤ o.maxDepth) : Reads .factor d c (t :: ts) (.unary t a) ts₁
  | leaf {d c t ts} (ht : t.kind = .identifier ∨ t.kind = .integer ∨ t.kind = .float)
      (hd : d < o.maxDepth) : Reads .factor d c (t :: ts) (.leaf t) ts
  | missing {d c ts} (hl : o.isLenient = true) (h : (front stop ts).kind = .endOfInput)
      (hd : d < o.maxDepth) : Reads .factor d c ts (.leaf (front stop ts)) ts

def tooDeep (t : Token) : SyntaxError := ⟨.tooDeep o.maxDepth, t.position⟩

/-- How a rule fails: the tokens before, the error, and the tokens it was met with. -/
inductive Fails : Rule → Nat → Context → List Token → SyntaxError → List Token → Prop
  | expressionFirst {d c ts ts' e} (first : Fails .term d c ts e ts') :
      Fails .expression d c ts e ts'
  | expressionMore {d c ts ts₁ ts' t e} (first : Reads o stop .term d c ts t ts₁)
      (more : Fails (.sum t) d c ts₁ e ts') : Fails .expression d c ts e ts'
  | sumRight {d c op ts ts' l e} (hop : op.kind = .plus ∨ op.kind = .minus)
      (right : Fails .term d c ts e ts') : Fails (.sum l) d c (op :: ts) e ts'
  | sumTall {d c op ts ts₁ l t} (hop : op.kind = .plus ∨ op.kind = .minus)
      (right : Reads o stop .term d c ts t ts₁) (hh : o.maxDepth < (Tree.binary op l t).height) :
      Fails (.sum l) d c (op :: ts) (tooDeep o op) ts₁
  | sumMore {d c op ts ts₁ ts' l t e} (hop : op.kind = .plus ∨ op.kind = .minus)
      (right : Reads o stop .term d c ts t ts₁) (hh : (Tree.binary op l t).height ≤ o.maxDepth)
      (more : Fails (.sum (.binary op l t)) d c ts₁ e ts') : Fails (.sum l) d c (op :: ts) e ts'
  | termFirst {d c ts ts' e} (first : Fails .power d c ts e ts') : Fails .term d c ts e ts'
  | termMore {d c ts ts₁ ts' t e} (first : Reads o stop .power d c ts t ts₁)
      (more : Fails (.product t) d c ts₁ e ts') : Fails .term d c ts e ts'
  | productRight {d c op ts ts₀ ts' l e} (sign : Signed c ts op ts₀)
      (right : Fails .power d c ts₀ e ts') : Fails (.product l) d c ts e ts'
  | productTall {d c op ts ts₀ ts₁ l t} (sign : Signed c ts op ts₀)
      (right : Reads o stop .power d c ts₀ t ts₁)
      (hh : o.maxDepth < (Tree.binary op l t).height) :
      Fails (.product l) d c ts (tooDeep o op) ts₁
  | productMore {d c op ts ts₀ ts₁ ts' l t e} (sign : Signed c ts op ts₀)
      (right : Reads o stop .power d c ts₀ t ts₁) (hh : (Tree.binary op l t).height ≤ o.maxDepth)
      (more : Fails (.product (.binary op l t)) d c ts₁ e ts') : Fails (.product l) d c ts e ts'
  | powerBase {d c ts ts' e} (base : Fails .application d c ts e ts') : Fails .power d c ts e ts'
  | exponentDeep {d c op ts ts₁ t} (base : Reads o stop .application d c ts t (op :: ts₁))
      (hop : op.kind = .power) (hd : o.maxDepth ≤ d) : Fails .power d c ts (tooDeep o op) ts₁
  | exponent {d c op ts ts₁ ts' t e} (base : Reads o stop .application d c ts t (op :: ts₁))
      (hop : op.kind = .power) (hd : d < o.maxDepth) (exponent : Fails .power (d + 1) c ts₁ e ts') :
      Fails .power d c ts e ts'
  | powerTall {d c op ts ts₁ ts₂ t u} (base : Reads o stop .application d c ts t (op :: ts₁))
      (hop : op.kind = .power) (hd : d < o.maxDepth)
      (exponent : Reads o stop .power (d + 1) c ts₁ u ts₂)
      (hh : o.maxDepth < (Tree.binary op t u).height) : Fails .power d c ts (tooDeep o op) ts₂
  | callee {d c ts ts' e} (callee : Fails .factor d c ts e ts') : Fails .application d c ts e ts'
  | argumentDeep {d c next ts ts₁ t} (callee : Reads o stop .factor d c ts t (next :: ts₁))
      (ht : t.isBareName = true) (hj : c.joins next.kind = true) (hd : o.maxDepth ≤ d) :
      Fails .application d c ts (tooDeep o next) (next :: ts₁)
  | argument {d c next ts ts₁ ts' t e} (callee : Reads o stop .factor d c ts t (next :: ts₁))
      (ht : t.isBareName = true) (hj : c.joins next.kind = true) (hd : d < o.maxDepth)
      (argument : Fails .application (d + 1) c (next :: ts₁) e ts') :
      Fails .application d c ts e ts'
  | applicationTall {d c next ts ts₁ ts₂ t u}
      (callee : Reads o stop .factor d c ts t (next :: ts₁))
      (ht : t.isBareName = true) (hj : c.joins next.kind = true) (hd : d < o.maxDepth)
      (argument : Reads o stop .application (d + 1) c (next :: ts₁) u ts₂)
      (hh : o.maxDepth < (Tree.binary (.implied .juxtaposition next) t u).height) :
      Fails .application d c ts (tooDeep o (.implied .juxtaposition next)) ts₂
  | factorDeep {d c ts} (hd : o.maxDepth ≤ d) :
      Fails .factor d c ts (tooDeep o (front stop ts)) ts
  | parensInner {d c t ts ts' e} (ht : t.kind = .leftParen) (hd : d < o.maxDepth)
      (inner : Fails .expression (d + 1) .plain ts e ts') : Fails .factor d c (t :: ts) e ts'
  | parensOpen {d c t ts ts₁ a} (ht : t.kind = .leftParen) (hd : d < o.maxDepth)
      (inner : Reads o stop .expression (d + 1) .plain ts a ts₁)
      (h : (front stop ts₁).kind ≠ .rightParen) (hl : o.isLenient = false) :
      Fails .factor d c (t :: ts) ⟨.unmatchedDelimiter '(', t.position⟩ ts₁
  | barsInner {d c t ts ts' e} (ht : t.kind = .bar) (hd : d < o.maxDepth)
      (inner : Fails .expression (d + 1) .bars ts e ts') : Fails .factor d c (t :: ts) e ts'
  | barsOpen {d c t ts ts₁ a} (ht : t.kind = .bar) (hd : d < o.maxDepth)
      (inner : Reads o stop .expression (d + 1) .bars ts a ts₁)
      (h : (front stop ts₁).kind ≠ .bar) (hl : o.isLenient = false) :
      Fails .factor d c (t :: ts) ⟨.unmatchedDelimiter '|', t.position⟩ ts₁
  | barsTall {d c t ts ts₁ ts₂ a k} (ht : t.kind = .bar) (hd : d < o.maxDepth)
      (inner : Reads o stop .expression (d + 1) .bars ts a ts₁)
      (closes : Closes o stop .bar ts₁ k ts₂) (hh : o.maxDepth < (Tree.unary t a).height) :
      Fails .factor d c (t :: ts) (tooDeep o t) ts₂
  | signOperand {d c t ts ts' e} (ht : t.kind = .plus ∨ t.kind = .minus) (hd : d < o.maxDepth)
      (operand : Fails .application (d + 1) c ts e ts') : Fails .factor d c (t :: ts) e ts'
  | signTall {d c t ts ts₁ a} (ht : t.kind = .plus ∨ t.kind = .minus) (hd : d < o.maxDepth)
      (operand : Reads o stop .application (d + 1) c ts a ts₁)
      (hh : o.maxDepth < (Tree.unary t a).height) : Fails .factor d c (t :: ts) (tooDeep o t) ts₁
  | missing {d c ts} (hl : o.isLenient = false) (h : (front stop ts).kind = .endOfInput)
      (hd : d < o.maxDepth) :
      Fails .factor d c ts ⟨.unexpectedEnd, (front stop ts).position⟩ ts
  | unexpected {d c t ts} (hd : d < o.maxDepth) (hs : t.kind.startsOperand = false)
      (ht : t.kind ≠ .plus ∧ t.kind ≠ .minus ∧ t.kind ≠ .endOfInput) :
      Fails .factor d c (t :: ts) ⟨.unexpectedToken t.lexeme, t.position⟩ (t :: ts)

end Reckon.Parser
