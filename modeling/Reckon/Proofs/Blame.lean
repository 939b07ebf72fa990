import Reckon.Evaluation
import Reckon.Proofs.Derivation
import Reckon.Proofs.Segmentation
import Reckon.Symbols.Builtin

namespace Reckon

/-- A leaf of a tree, and whether it is what a juxtaposition may call. -/
structure Leaf where
  token : Token
  callee : Bool
  deriving DecidableEq, Repr

namespace Tree

def leavesAs (callee : Bool) : Tree → List Leaf
  | leaf t => [⟨t, callee⟩]
  | unary _ a => a.leavesAs false
  | binary op a b => a.leavesAs (op.kind = .juxtaposition) ++ b.leavesAs false
  | rightOnly _ b => b.leavesAs false

def leaves (t : Tree) : List Leaf := t.leavesAs false

end Tree

def Kind.isInfix : Kind → Bool
  | plus | minus | times | divide | power | juxtaposition => true
  | _ => false

/-- Trees in which every node has a value for the values of its operands. -/
inductive Tree.WellFormed : Tree → Prop
  | leaf {t} (h : t.kind = .identifier ∨ t.kind = .integer ∨ t.kind = .float ∨
      t.kind = .endOfInput) : WellFormed (.leaf t)
  | unary {t a} (h : t.kind = .plus ∨ t.kind = .minus ∨ t.kind = .bar) (ha : WellFormed a) :
      WellFormed (.unary t a)
  | binary {t a b} (h : t.kind.isInfix = true) (ha : WellFormed a) (hb : WellFormed b) :
      WellFormed (.binary t a b)

namespace Symbols

variable (s : Symbols)

/-- What is wrong with a leaf, if anything is. A function needs an operand, unless it stands where
it gets one. -/
def fault? (l : Leaf) : Option EvalFault :=
  match l.token.kind with
  | .identifier =>
    match s.get? l.token.lexeme with
    | none => some (.unknownName l.token.lexeme)
    | some (.function _) => if l.callee then none else some (.missingArgument l.token.lexeme)
    | some (.constant _) => none
  | .integer | .float =>
    if (Literal.read? l.token.lexeme).isNone then some (.invalidLiteral l.token.lexeme) else none
  | _ => none

def errorAt? (l : Leaf) : Option EvalError := (s.fault? l).map (⟨·, l.token.position⟩)

def firstError? (ls : List Leaf) : Option EvalError := ls.findSome? s.errorAt?

end Symbols

def Reports : Option EvalError → Except EvalError Value → Prop
  | none, r => ∃ v, r = .ok v
  | some e, r => r = .error e

section Reports

variable {s : Symbols} {e e' : Option EvalError} {r : Except EvalError Value} {t a b : Tree}

theorem Reports.bind {f : Value → Except EvalError Value} (h : Reports e r)
    (hf : ∀ v, Reports e' (f v)) : Reports (e.or e') (r >>= f) := by
  cases e with
  | none =>
      obtain ⟨v, rfl⟩ := h
      exact hf v
  | some e =>
      cases h
      rfl

theorem Reports.map {f : Value → Except EvalError Value} (h : Reports e r)
    (hf : ∀ v, ∃ w, f v = .ok w) : Reports e (r >>= f) := by
  have hn (v : Value) : Reports none (f v) := hf v
  have hr := h.bind hn
  rwa [Option.or_none] at hr

theorem firstError_leaf (t : Token) (callee : Bool) :
    s.firstError? ((Tree.leaf t).leavesAs callee) = s.errorAt? ⟨t, callee⟩ := by
  rw [Tree.leavesAs, Symbols.firstError?, List.findSome?_cons]
  cases s.errorAt? ⟨t, callee⟩ <;> rfl

theorem firstError_binary (op : Token) (a b : Tree) :
    s.firstError? (Tree.binary op a b).leaves =
      (s.firstError? (a.leavesAs (op.kind = .juxtaposition))).or (s.firstError? b.leaves) :=
  List.findSome?_append ..

theorem leaf_reports {t : Token} (h : t.kind = .identifier ∨ t.kind = .integer ∨ t.kind = .float ∨
    t.kind = .endOfInput) : Reports (s.errorAt? ⟨t, false⟩) (s.alone t) := by
  rcases h with h | h | h | h
  · simp only [Symbols.alone, Symbols.named, Symbols.errorAt?, Symbols.fault?, h]
    cases s.get? t.lexeme with
    | none => rfl
    | some m =>
        cases m with
        | constant v => exact ⟨v, rfl⟩
        | function f => rfl
  · simp only [Symbols.alone, Token.literal, Symbols.errorAt?, Symbols.fault?, h]
    cases Literal.read? t.lexeme with
    | none => rfl
    | some x => exact ⟨_, rfl⟩
  · simp only [Symbols.alone, Token.literal, Symbols.errorAt?, Symbols.fault?, h]
    cases Literal.read? t.lexeme with
    | none => rfl
    | some x => exact ⟨_, rfl⟩
  · simp only [Symbols.alone, Symbols.errorAt?, Symbols.fault?, h]
    exact ⟨_, rfl⟩

theorem firstError_of_function {f : Float → Float} (h : s.function? a = some f) :
    s.firstError? (a.leavesAs true) = none := by
  cases a with
  | leaf t =>
      rw [Symbols.function?] at h
      split at h
      case isTrue hb =>
        have hk : t.kind = .identifier := of_decide_eq_true hb
        split at h
        case h_1 g hg =>
          rw [Tree.token] at hg
          simp only [firstError_leaf, Symbols.errorAt?, Symbols.fault?, hk, hg, if_true,
            Option.map_none]
        case h_2 => cases h
      case isFalse => cases h
  | unary | binary | rightOnly => cases h

theorem firstError_of_no_function (h : s.function? a = none) :
    s.firstError? (a.leavesAs true) = s.firstError? a.leaves := by
  cases a with
  | leaf t =>
      rw [Tree.leaves, firstError_leaf, firstError_leaf, Symbols.errorAt?, Symbols.errorAt?]
      congr 1
      simp only [Symbols.fault?]
      cases hk : t.kind with
      | identifier =>
          have hb : (Tree.leaf t).isBareName = true := decide_eq_true hk
          rw [Symbols.function?, if_pos hb, Tree.token] at h
          cases hg : s.get? t.lexeme with
          | none => rfl
          | some m =>
              cases m with
              | constant v => rfl
              | function f =>
                  rw [hg] at h
                  cases h
      | _ => rfl
  | unary | binary | rightOnly => rfl

theorem arithmetic_reports {op : Kind}
    (hop : op = .plus ∨ op = .minus ∨ op = .times ∨ op = .divide ∨ op = .power)
    (ha : Reports e (s.eval a)) (hb : Reports e' (s.eval b)) (u : Except EvalError Value) :
    Reports (e.or e') (do
      let x ← s.eval a
      let y ← s.eval b
      ((op.binary? x y).map Except.ok).getD u) := by
  refine ha.bind fun x => hb.map fun y => ?_
  rcases hop with rfl | rfl | rfl | rfl | rfl <;> exact ⟨_, rfl⟩

theorem juxtaposition_reports (ha : Reports (s.firstError? a.leaves) (s.eval a))
    (hb : Reports e (s.eval b)) :
    Reports ((s.firstError? (a.leavesAs true)).or e)
      (match s.function? a with
      | some f => do
        let y ← s.eval b
        return .float (f y.number)
      | none => do
        let x ← s.eval a
        let y ← s.eval b
        return .computed (x.number * y.number)) := by
  cases h : s.function? a with
  | some f =>
      rw [firstError_of_function h]
      exact hb.map fun y => ⟨_, rfl⟩
  | none =>
      rw [firstError_of_no_function h]
      exact ha.bind fun x => hb.map fun y => ⟨_, rfl⟩

theorem Tree.WellFormed.reports (h : t.WellFormed) :
    Reports (s.firstError? t.leaves) (s.eval t) := by
  induction h with
  | leaf h =>
      rw [leaves, firstError_leaf, Symbols.eval]
      exact leaf_reports h
  | unary h _ ih =>
      rw [Symbols.eval]
      rcases h with h | h | h <;> rw [h] <;> exact ih.map fun v => ⟨_, rfl⟩
  | @binary t a b h _ _ ih ih' =>
      rw [firstError_binary, Symbols.eval]
      cases hk : t.kind with
      | plus | minus | times | divide | power =>
          exact arithmetic_reports (by simp) ih ih' _
      | juxtaposition => exact juxtaposition_reports ih ih'
      | _ =>
          rw [hk] at h
          cases h

end Reports

namespace Parser

variable {c : Context} {lvl : Level} {k : Kind} {stop : Position}

theorem isInfix_between (next : Token) : (between next).kind.isInfix = true := by
  rw [between, Token.implied]
  split <;> rfl

theorem Fits.wellFormed {m : Strictness} {p : Phrase} (h : Fits (m.spare stop) c lvl p k) :
    p.tree.WellFormed := by
  induction h with
  | term _ ih | power _ ih | application _ ih | factor _ _ ih | parens _ _ _ ih => exact ih
  | sum _ hop _ ih ih' => exact .binary (by rcases hop with hop | hop <;> rw [hop] <;> rfl) ih ih'
  | product _ hop _ ih ih' =>
      exact .binary (by rcases hop with hop | hop <;> rw [Option.getD_some, hop] <;> rfl) ih ih'
  | adjacent _ _ _ ih ih' => exact .binary (isInfix_between _) ih ih'
  | raised _ hop _ ih ih' => exact .binary (by rw [hop]; rfl) ih ih'
  | applied _ _ _ _ ih ih' => exact .binary rfl ih ih'
  | bars ht _ _ ih => exact .unary (.inr (.inr ht)) ih
  | sign ht _ ih => exact .unary (by rcases ht with ht | ht <;> simp [ht]) ih
  | operand ht => exact .leaf (by rcases ht with ht | ht | ht <;> simp [ht])
  | missing h =>
      rw [eq_of_spare h]
      exact .leaf (by simp [Token.finish])

theorem Phrase.written_leaves_sublist (p : Phrase) (callee : Bool) :
    (((p.tree.leavesAs callee).map Leaf.token).filter (·.kind ≠ .endOfInput)).Sublist p.tokens := by
  induction p generalizing callee with
  | operand t =>
      rw [tree, Tree.leavesAs, List.map_singleton, tokens]
      split
      case isTrue h => simp [h]
      case isFalse h => simp [h]
  | parens t p k ih => exact (ih callee).trans ((List.sublist_append_left _ _).cons t)
  | bars t p k ih => exact (ih false).trans ((List.sublist_append_left _ _).cons t)
  | sign t p ih => exact (ih false).cons t
  | applied p q ih ih' | power p op q ih ih' | product p op q ih ih' | sum p op q ih ih' =>
      simp only [tree, Tree.leavesAs, List.map_append, List.filter_append, tokens]
      refine (ih _).append ((ih' _).trans ?_)
      simp

end Parser

def Token.Before (t u : Token) : Prop := t.position.offset < u.position.offset

open Reckon.Parser

variable {o : Options} {text : String} {t : Tree} (s : Symbols)

theorem wellFormed_of_parse (h : parse o (.ofString text) = .ok t) : t.WellFormed := by
  by_cases hne : (Scan.ofString text).tokens = []
  · rw [parse_nil hne] at h
    cases h
    exact .leaf (by simp [Scan.finish, Token.finish])
  · obtain ⟨p, rest, hp, _, rfl⟩ := (parse_eq_ok_iff_heads (Scan.ne_end_of_mem text) hne).1 h
    exact hp.fits.wellFormed

theorem written_leaves_sublist_of_parse (h : parse o (.ofString text) = .ok t) :
    ((t.leaves.map Leaf.token).filter (·.kind ≠ .endOfInput)).Sublist
      (Scan.ofString text).tokens := by
  by_cases hne : (Scan.ofString text).tokens = []
  · rw [parse_nil hne] at h
    cases h
    simp [Tree.leaves, Tree.leavesAs, Scan.finish, Token.finish]
  · obtain ⟨p, rest, hp, -, rfl⟩ := (parse_eq_ok_iff_heads (Scan.ne_end_of_mem text) hne).1 h
    rw [hp.tokens]
    exact (p.written_leaves_sublist false).trans (List.sublist_append_left p.tokens rest)

theorem mem_tokens_of_mem_leaves (h : parse o (.ofString text) = .ok t) {l : Leaf}
    (hl : l ∈ t.leaves) (hk : l.token.kind ≠ .endOfInput) :
    l.token ∈ (Scan.ofString text).tokens :=
  (written_leaves_sublist_of_parse h).subset (List.mem_filter.2
    ⟨List.mem_map_of_mem hl, decide_eq_true hk⟩)

theorem pairwise_leaves_of_parse (h : parse o (.ofString text) = .ok t) :
    t.leaves.Pairwise fun l l' => l.token.kind ≠ .endOfInput → l'.token.kind ≠ .endOfInput →
      l.token.Before l'.token := by
  have hp := (Scan.pairwise_before text).sublist (written_leaves_sublist_of_parse h)
  rw [List.pairwise_filter, List.pairwise_map] at hp
  simpa [Token.Before] using hp

theorem Symbols.kind_ne_end_of_fault {l : Leaf} {f : EvalFault} (h : s.fault? l = some f) :
    l.token.kind ≠ .endOfInput := by
  intro he
  rw [fault?, he] at h
  cases h

theorem Symbols.fault_ne_unknownExpression {l : Leaf} {node : String} :
    s.fault? l ≠ some (.unknownExpression node) := by
  intro h
  unfold fault? at h
  split at h
  · split at h
    · cases h
    · split at h <;> cases h
    · cases h
  · split at h <;> cases h
  · split at h <;> cases h
  · cases h

theorem firstError_eq_none_iff {ls : List Leaf} :
    s.firstError? ls = none ↔ ∀ l ∈ ls, s.fault? l = none := by
  simp [Symbols.firstError?, Symbols.errorAt?]

theorem firstError_eq_some (h : parse o (.ofString text) = .ok t) {l : Leaf} {f : EvalFault}
    (hl : l ∈ t.leaves) (hf : s.fault? l = some f)
    (hmin : ∀ l' ∈ t.leaves, s.fault? l' ≠ none → ¬l'.token.Before l.token) :
    s.firstError? t.leaves = some ⟨f, l.token.position⟩ := by
  cases he : s.firstError? t.leaves with
  | none =>
      rw [(firstError_eq_none_iff s).1 he l hl] at hf
      cases hf
  | some e =>
      obtain ⟨ls, l₀, ls', hls, h₀, hn⟩ := List.findSome?_eq_some_iff.1 he
      obtain ⟨f₀, hf₀, rfl⟩ := Option.map_eq_some_iff.1 h₀
      have hp := pairwise_leaves_of_parse h
      rw [hls] at hl hmin hp
      rw [List.pairwise_append, List.pairwise_cons] at hp
      rcases List.mem_append.1 hl with hl | hl
      · have := hn l hl
        rw [Symbols.errorAt?, hf] at this
        cases this
      · rcases List.mem_cons.1 hl with rfl | hl
        · rw [hf] at hf₀
          cases hf₀
          rfl
        · have hb := hp.2.1.1 l hl (s.kind_ne_end_of_fault hf₀) (s.kind_ne_end_of_fault hf)
          exact absurd hb (hmin l₀ (by simp) (by simp [hf₀]))

/-- A tree that was read has a value unless a leaf is at fault, and then the error is that of the
leftmost one. -/
theorem eval_blames_first_leaf (o : Options) (text : String) (t : Tree) (s : Symbols)
    (h : parse o (.ofString text) = .ok t) :
    ((∃ v, s.eval t = .ok v) ↔ ∀ l ∈ t.leaves, s.fault? l = none) ∧
      (∀ l ∈ t.leaves, ∀ f, s.fault? l = some f →
        (∀ l' ∈ t.leaves, s.fault? l' ≠ none →
          l.token.position.offset ≤ l'.token.position.offset) →
        s.eval t = .error ⟨f, l.token.position⟩) ∧
      ∀ e node, s.eval t = .error e → e.fault ≠ .unknownExpression node := by
  have hr : Reports (s.firstError? t.leaves) (s.eval t) := (wellFormed_of_parse h).reports
  refine ⟨?_, ?_, ?_⟩
  · rw [← firstError_eq_none_iff]
    cases he : s.firstError? t.leaves with
    | none =>
        rw [he] at hr
        exact iff_of_true hr rfl
    | some e =>
        rw [he, Reports] at hr
        simp [hr]
  · intro l hl f hf hmin
    have he := firstError_eq_some s h hl hf fun l' hl' hf' => Nat.not_lt.2 (hmin l' hl' hf')
    rwa [he] at hr
  · intro e node he hn
    cases hf : s.firstError? t.leaves with
    | none =>
        rw [hf, he] at hr
        obtain ⟨v, hv⟩ := hr
        cases hv
    | some e' =>
        rw [hf, he, Reports, Except.error.injEq] at hr
        obtain ⟨_, l, _, _, hl, _⟩ := List.findSome?_eq_some_iff.1 hf
        obtain ⟨f, hfl, rfl⟩ := Option.map_eq_some_iff.1 hl
        cases hr
        cases hn
        exact s.fault_ne_unknownExpression hfl

theorem eval_blames_literal_in_call :
    ∃ t, parse .default (.ofString "cos(1.2.3)+sin") = .ok t ∧
      Symbols.standard.eval t = .error ⟨.invalidLiteral "1.2.3", ⟨4, 1, 5⟩⟩ := by
  have h : parse .default (.ofString "cos(1.2.3)+sin") =
      .ok (.binary ⟨.plus, "+", 1, ⟨10, 1, 11⟩⟩
        (.binary ⟨.juxtaposition, "", 0, ⟨3, 1, 4⟩⟩ (.leaf ⟨.identifier, "cos", 3, ⟨0, 1, 1⟩⟩)
          (.leaf ⟨.float, "1.2.3", 5, ⟨4, 1, 5⟩⟩))
        (.leaf ⟨.identifier, "sin", 3, ⟨11, 1, 12⟩⟩)) := by decide +kernel
  obtain ⟨_, hb, _⟩ := eval_blames_first_leaf _ _ _ Symbols.standard h
  refine ⟨_, h, hb ⟨⟨.float, "1.2.3", 5, ⟨4, 1, 5⟩⟩, false⟩ ?_ _ ?_ ?_⟩
  · decide
  · decide +kernel
  · decide +kernel

end Reckon
