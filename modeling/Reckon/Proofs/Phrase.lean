import Reckon.Proofs.Reading

namespace Reckon

def Kind.ends : Kind → Bool
  | endOfInput | rightParen | ampersand | percent | juxtaposition | unclassified => true
  | _ => false

def Strictness.spare : Strictness → Position → Option Token
  | strict, _ => none
  | lenient, stop => some (.finish stop)

namespace Parser

def Context.closes : Context → Kind → Bool
  | bars, .bar => true
  | _, k => k.ends

/-- A delimiter left out is `none`, and so is the operator of a product of neighbours. -/
inductive Phrase where
  | operand (token : Token)
  | parens (opening : Token) (inner : Phrase) (closing : Option Token)
  | bars (opening : Token) (inner : Phrase) (closing : Option Token)
  | sign (op : Token) (operand : Phrase)
  | applied (callee argument : Phrase)
  | power (base : Phrase) (op : Token) (exponent : Phrase)
  | product (left : Phrase) (op : Option Token) (right : Phrase)
  | sum (left : Phrase) (op : Token) (right : Phrase)
  deriving DecidableEq, Repr

namespace Phrase

def first : Phrase → Token
  | operand t | parens t _ _ | bars t _ _ | sign t _ => t
  | applied a _ | power a _ _ | product a _ _ | sum a _ _ => a.first

def tokens : Phrase → List Token
  | operand t => if t.kind = .endOfInput then [] else [t]
  | parens t a k | bars t a k => t :: (a.tokens ++ k.toList)
  | sign t a => t :: a.tokens
  | applied a b => a.tokens ++ b.tokens
  | power a op b | sum a op b => a.tokens ++ op :: b.tokens
  | product a op b => a.tokens ++ (op.toList ++ b.tokens)

def tree : Phrase → Tree
  | operand t => .leaf t
  | parens _ a _ => a.tree
  | bars t a _ | sign t a => .unary t a.tree
  | applied a b => .binary (.implied .juxtaposition b.first) a.tree b.tree
  | power a op b | sum a op b => .binary op a.tree b.tree
  | product a op b => .binary (op.getD (between b.first)) a.tree b.tree

def enclosed (operands : List (Token × Nat)) : List (Token × Nat) :=
  operands.map fun x => (x.1, x.2 + 1)

/-- The operands, each with the number of parentheses, bars, signs, arguments and exponents it
stands in. -/
def operands : Phrase → List (Token × Nat)
  | operand t => [(t, 0)]
  | parens _ a _ | bars _ a _ | sign _ a => enclosed a.operands
  | applied a b | power a _ b => a.operands ++ enclosed b.operands
  | product a _ b | sum a _ b => a.operands ++ b.operands

def nesting (p : Phrase) : Nat := (p.operands.map fun x => x.2 + 1).foldr max 0

theorem foldr_max_append (xs ys : List Nat) :
    (xs ++ ys).foldr max 0 = max (xs.foldr max 0) (ys.foldr max 0) := by
  induction xs with
  | nil => simp
  | cons x xs ih => simp [ih, Nat.max_assoc]

theorem foldr_max_succ {xs : List Nat} (h : xs ≠ []) :
    (xs.map (· + 1)).foldr max 0 = xs.foldr max 0 + 1 := by
  induction xs with
  | nil => exact absurd rfl h
  | cons x xs ih =>
      cases xs with
      | nil => simp
      | cons y ys =>
          have h := ih (by simp)
          simp only [List.map_cons, List.foldr_cons] at h ⊢
          omega

theorem operands_ne_nil (p : Phrase) : p.operands ≠ [] := by
  induction p <;> simp_all [operands, enclosed]

@[simp] theorem nesting_operand (t : Token) : (operand t).nesting = 1 := rfl

theorem foldr_enclosed (p : Phrase) :
    ((enclosed p.operands).map fun x => x.2 + 1).foldr max 0 = p.nesting + 1 := by
  rw [nesting, ← foldr_max_succ (by simpa using p.operands_ne_nil), enclosed, List.map_map,
    List.map_map]
  rfl

@[simp] theorem nesting_parens (t : Token) (p : Phrase) (k : Option Token) :
    (parens t p k).nesting = p.nesting + 1 := foldr_enclosed p

@[simp] theorem nesting_bars (t : Token) (p : Phrase) (k : Option Token) :
    (bars t p k).nesting = p.nesting + 1 := foldr_enclosed p

@[simp] theorem nesting_sign (t : Token) (p : Phrase) : (sign t p).nesting = p.nesting + 1 :=
  foldr_enclosed p

@[simp] theorem nesting_applied (p q : Phrase) :
    (applied p q).nesting = max p.nesting (q.nesting + 1) := by
  rw [← foldr_enclosed q, nesting, operands, List.map_append, foldr_max_append]
  rfl

@[simp] theorem nesting_power (p : Phrase) (op : Token) (q : Phrase) :
    (power p op q).nesting = max p.nesting (q.nesting + 1) := nesting_applied p q

@[simp] theorem nesting_product (p : Phrase) (op : Option Token) (q : Phrase) :
    (product p op q).nesting = max p.nesting q.nesting := by
  rw [nesting, operands, List.map_append, foldr_max_append]
  rfl

@[simp] theorem nesting_sum (p : Phrase) (op : Token) (q : Phrase) :
    (sum p op q).nesting = max p.nesting q.nesting := nesting_product p none q

structure Admitted (o : Options) (d : Nat) (p : Phrase) : Prop where
  nesting : d + p.nesting ≤ o.maxDepth
  height : p.tree.height ≤ o.maxDepth

section Admitted

variable {o : Options} {d : Nat} (t : Token) (p q : Phrase) (t? : Option Token)

theorem admitted_iff : p.Admitted o d ↔ d + p.nesting ≤ o.maxDepth ∧ p.tree.height ≤ o.maxDepth :=
  ⟨fun h => ⟨h.nesting, h.height⟩, fun h => ⟨h.1, h.2⟩⟩

theorem admitted_zero : p.Admitted o 0 ↔ max p.tree.height p.nesting ≤ o.maxDepth := by
  rw [admitted_iff]
  omega

theorem admitted_operand : (operand t).Admitted o d ↔ d < o.maxDepth := by
  simp only [admitted_iff, nesting_operand, tree, Tree.height]
  omega

theorem admitted_parens : (parens t p t?).Admitted o d ↔ p.Admitted o (d + 1) := by
  simp only [admitted_iff, nesting_parens, tree]
  omega

theorem admitted_bars : (bars t p t?).Admitted o d ↔
    p.Admitted o (d + 1) ∧ (Tree.unary t p.tree).height ≤ o.maxDepth := by
  simp only [admitted_iff, nesting_bars, tree, Tree.height]
  omega

theorem admitted_sign : (sign t p).Admitted o d ↔
    p.Admitted o (d + 1) ∧ (Tree.unary t p.tree).height ≤ o.maxDepth := by
  simp only [admitted_iff, nesting_sign, tree, Tree.height]
  omega

theorem admitted_power : (power p t q).Admitted o d ↔
    p.Admitted o d ∧ q.Admitted o (d + 1) ∧ (Tree.binary t p.tree q.tree).height ≤ o.maxDepth := by
  simp only [admitted_iff, nesting_power, tree, Tree.height]
  omega

theorem admitted_applied : (applied p q).Admitted o d ↔ p.Admitted o d ∧ q.Admitted o (d + 1) ∧
    (Tree.binary (.implied .juxtaposition q.first) p.tree q.tree).height ≤ o.maxDepth := by
  simp only [admitted_iff, nesting_applied, tree, Tree.height]
  omega

theorem admitted_sum : (sum p t q).Admitted o d ↔
    p.Admitted o d ∧ q.Admitted o d ∧ (Tree.binary t p.tree q.tree).height ≤ o.maxDepth := by
  simp only [admitted_iff, nesting_sum, tree, Tree.height]
  omega

theorem admitted_product : (product p t? q).Admitted o d ↔ p.Admitted o d ∧ q.Admitted o d ∧
    (Tree.binary (t?.getD (between q.first)) p.tree q.tree).height ≤ o.maxDepth := by
  simp only [admitted_iff, nesting_product, tree, Tree.height]
  omega

variable {p}

theorem Admitted.lt (h : p.Admitted o (d + 1)) : d < o.maxDepth := by
  have := h.nesting
  omega

end Admitted

end Phrase

inductive Level where
  | expression | term | power | application | factor
  deriving DecidableEq, Repr

/-- How a delimiter of kind `k` closes a phrase: the kind of the token after what is inside, and
after the whole. -/
inductive Closed (spare : Option Token) (k : Kind) : Option Token → Kind → Kind → Prop
  | written {t next} (h : t.kind = k) : Closed spare k (some t) t.kind next
  | assumed {next} (hs : spare.isSome = true) (h : next ≠ k) (he : next.ends = true) :
      Closed spare k none next next

/-- The phrases of the grammar. With a `spare` token, which is the end of the text, that token may
stand for an operand and delimiters may be left out; without one the grammar is the strict one. A
name takes the operand after it for its argument, so that it is a factor by itself only where no
operand follows. -/
inductive Fits (spare : Option Token) : Context → Level → Phrase → Kind → Prop
  | term {c p k} (h : Fits spare c .term p k) : Fits spare c .expression p k
  | sum {c p op q k} (left : Fits spare c .expression p op.kind)
      (hop : op.kind = .plus ∨ op.kind = .minus) (right : Fits spare c .term q k) :
      Fits spare c .expression (.sum p op q) k
  | power {c p k} (h : Fits spare c .power p k) : Fits spare c .term p k
  | product {c p op q k} (left : Fits spare c .term p op.kind)
      (hop : op.kind = .times ∨ op.kind = .divide) (right : Fits spare c .power q k) :
      Fits spare c .term (.product p (some op) q) k
  | adjacent {c p q k} (left : Fits spare c .term p q.first.kind)
      (hj : c.joins q.first.kind = true) (right : Fits spare c .power q k) :
      Fits spare c .term (.product p none q) k
  | application {c p k} (h : Fits spare c .application p k) : Fits spare c .power p k
  | raised {c p op q k} (base : Fits spare c .application p op.kind) (hop : op.kind = .power)
      (exponent : Fits spare c .power q k) : Fits spare c .power (.power p op q) k
  | factor {c p k} (h : Fits spare c .factor p k)
      (hk : (p.tree.isBareName && c.joins k) = false) : Fits spare c .application p k
  | applied {c p q k} (callee : Fits spare c .factor p q.first.kind)
      (hp : p.tree.isBareName = true) (hj : c.joins q.first.kind = true)
      (argument : Fits spare c .application q k) : Fits spare c .application (.applied p q) k
  | parens {c t p k i next} (ht : t.kind = .leftParen) (inner : Fits spare .plain .expression p i)
      (closed : Closed spare .rightParen k i next) : Fits spare c .factor (.parens t p k) next
  | bars {c t p k i next} (ht : t.kind = .bar) (inner : Fits spare .bars .expression p i)
      (closed : Closed spare .bar k i next) : Fits spare c .factor (.bars t p k) next
  | sign {c t p k} (ht : t.kind = .plus ∨ t.kind = .minus)
      (operand : Fits spare c .application p k) : Fits spare c .factor (.sign t p) k
  | operand {c t k} (ht : t.kind = .identifier ∨ t.kind = .integer ∨ t.kind = .float) :
      Fits spare c .factor (.operand t) k
  | missing {c t} (h : spare = some t) : Fits spare c .factor (.operand t) .endOfInput

theorem Fits.not_bareName {spare : Option Token} {c : Context} {p : Phrase} {k : Kind}
    (h : Fits spare c .term p k) (hj : c.joins k = true) :
    p.tree.isBareName = false := by
  cases h with
  | product | adjacent => rfl
  | power h =>
      cases h with
      | raised => rfl
      | application h =>
          cases h with
          | applied => rfl
          | factor _ hk => simpa [hj] using hk

theorem Phrase.exists_tokens_eq {p : Phrase} (h : p.first.kind ≠ .endOfInput) :
    ∃ us, p.tokens = p.first :: us := by
  induction p with
  | operand t => exact ⟨[], if_neg h⟩
  | parens t p k | bars t p k | sign t p => exact ⟨_, rfl⟩
  | applied p q ih | power p op q ih | product p op q ih | sum p op q ih =>
      obtain ⟨us, hu⟩ := ih h
      exact ⟨_, congrArg (· ++ _) hu⟩

/-- A phrase that a text starts with, before tokens that do not go on with it. The strict grammar
wants the whole text. -/
structure Phrase.Heads (m : Strictness) (scan : Scan) (rest : List Token) (p : Phrase) : Prop where
  fits : Fits (m.spare scan.stop) .plain .expression p (front scan.stop rest).kind
  tokens : scan.tokens = p.tokens ++ rest
  closes : Context.plain.closes (front scan.stop rest).kind = true
  all : m = .strict → rest = []

def Derives (w : List Token) (t : Tree) : Prop :=
  ∃ p : Phrase, Fits none .plain .expression p .endOfInput ∧ p.tokens = w ∧ p.tree = t

end Parser

end Reckon
