import Reckon.Proofs.Enclosure
import Reckon.Proofs.Repair

namespace Reckon

/-- The nodes in the order they are written in: a sign or a bar before its operand, an operator
between its operands. -/
def Tree.inorder : Tree → List Token
  | leaf t => [t]
  | unary t a => t :: a.inorder
  | binary t a b => a.inorder ++ t :: b.inorder
  | rightOnly t b => t :: b.inorder

/-- What is open at a place of a text, the innermost first, and whether an operand ends there. -/
structure Delimiters where
  opened : List Kind
  filled : Bool
  deriving DecidableEq, Repr

namespace Delimiters

def start : Delimiters := ⟨[], false⟩

def closes (s : Delimiters) : Kind → Bool
  | .rightParen => true
  | .bar => s.filled && s.opened.head? == some .bar
  | _ => false

/-- A parenthesis closes the bars in it that were left open. -/
def after (s : Delimiters) (t : Token) : Delimiters :=
  match t.kind with
  | .leftParen => ⟨.leftParen :: s.opened, false⟩
  | .rightParen => ⟨(s.opened.dropWhile (· == .bar)).tail, true⟩
  | .bar => if s.closes .bar then ⟨s.opened.tail, true⟩ else ⟨.bar :: s.opened, false⟩
  | .identifier | .integer | .float => ⟨s.opened, true⟩
  | _ => ⟨s.opened, false⟩

def hides (s : Delimiters) (t : Token) : Bool := t.kind == .leftParen || s.closes t.kind

def visible (s : Delimiters) : List Token → List Token
  | [] => []
  | t :: ts => if s.hides t then (s.after t).visible ts else t :: (s.after t).visible ts

def afterAll (s : Delimiters) (ts : List Token) : Delimiters := ts.foldl after s

variable {s : Delimiters} {t : Token}

theorem visible_hidden (h : s.hides t = true) (ts : List Token) :
    s.visible (t :: ts) = (s.after t).visible ts := by
  rw [visible, if_pos h]

theorem visible_shown (h : s.hides t = false) (ts : List Token) :
    s.visible (t :: ts) = t :: (s.after t).visible ts := by
  rw [visible, h, if_neg Bool.false_ne_true]

end Delimiters

def written (ts : List Token) : List Token := ts.filter (·.lexeme ≠ "")

/-- A place in tokens where one operand ends and the next starts, with the nodes `l` before it and
the nodes `r` after it. -/
structure Meets (s : Delimiters) (left : List Token) (next : Token) (right l r : List Token) :
    Prop where
  ended : (s.afterAll left).filled = true
  starts : next.kind.startsOperand = true
  opens : (s.afterAll left).closes next.kind = false
  before : s.visible left = written l
  after : (s.afterAll left).visible (next :: right) = written r

/-- Nodes on the tokens they come from. An operator nobody wrote stands between the end of an
operand and the start of the next, and the end of the text for an operand that is missing. -/
inductive Lays : Delimiters → List Token → List Token → Delimiters → Prop
  | nil {s} : Lays s [] [] s
  | hidden {s s' t ns ts} (h : s.hides t = true) (rest : Lays (s.after t) ns ts s') :
      Lays s ns (t :: ts) s'
  | shown {s s' t ns ts} (h : s.hides t = false) (rest : Lays (s.after t) ns ts s') :
      Lays s (t :: ns) (t :: ts) s'
  | implied {s s' k t ns ts} (hf : s.filled = true) (ht : t.kind.startsOperand = true)
      (hc : s.closes t.kind = false) (rest : Lays s ns (t :: ts) s') :
      Lays s (.implied k t :: ns) (t :: ts) s'
  | missing {s s' p ns ts} (rest : Lays s ns ts s') : Lays s (.finish p :: ns) ts s'

theorem Lays.append {s s₁ s' : Delimiters} {ns ns' ts ts' : List Token} (h : Lays s ns ts s₁)
    (h' : Lays s₁ ns' ts' s') : Lays s (ns ++ ns') (ts ++ ts') s' := by
  induction h with
  | nil => exact h'
  | hidden h _ ih => exact .hidden h (ih h')
  | shown h _ ih => exact .shown h (ih h')
  | implied hf ht hc _ ih => exact .implied hf ht hc (ih h')
  | missing _ ih => exact .missing (ih h')

section Lays

variable {s s' : Delimiters} {ns ts left right l r : List Token} {t op next : Token}

theorem written_cons (h : t.lexeme ≠ "") : written (t :: ns) = t :: written ns := by
  simp [written, h]

theorem written_cons_of_eq (h : t.lexeme = "") : written (t :: ns) = written ns := by
  simp [written, h]

theorem Lays.visible (h : Lays s ns ts s') (hw : ∀ t ∈ ts, t.lexeme ≠ "") :
    written ns = s.visible ts := by
  induction h with
  | nil => rfl
  | hidden h _ ih => rw [Delimiters.visible_hidden h, ih (List.forall_mem_cons.1 hw).2]
  | shown h _ ih =>
      obtain ⟨ht, hw⟩ := List.forall_mem_cons.1 hw
      rw [Delimiters.visible_shown h, written_cons ht, ih hw]
  | implied _ _ _ _ ih | missing _ ih => rw [written_cons_of_eq rfl, ih hw]

theorem Meets.hidden (h : Meets (s.after t) left next right l r) (ht : s.hides t = true) :
    Meets s (t :: left) next right l r :=
  ⟨h.ended, h.starts, h.opens, (Delimiters.visible_hidden ht left).trans h.before, h.after⟩

theorem Meets.shown (h : Meets (s.after t) left next right l r) (ht : s.hides t = false)
    (hl : t.lexeme ≠ "") : Meets s (t :: left) next right (t :: l) r := by
  refine ⟨h.ended, h.starts, h.opens, ?_, h.after⟩
  rw [Delimiters.visible_shown ht, written_cons hl, h.before]

theorem Meets.unwritten (h : Meets s left next right l r) (ht : t.lexeme = "") :
    Meets s left next right (t :: l) r :=
  { h with before := h.before.trans (written_cons_of_eq ht).symm }

theorem Lays.exists_meets (h : Lays s ns ts s') (hw : ∀ t ∈ ts, t.lexeme ≠ "")
    (hn : ns = l ++ op :: r) (ho : op.lexeme = "") (hk : op.kind ≠ .endOfInput) :
    ∃ left next right, ts = left ++ next :: right ∧ op = .implied op.kind next ∧
      Meets s left next right l r := by
  induction h generalizing l with
  | nil => simp at hn
  | hidden h _ ih =>
      obtain ⟨left, next, right, rfl, hop, hm⟩ := ih (List.forall_mem_cons.1 hw).2 hn
      exact ⟨_ :: left, next, right, rfl, hop, hm.hidden h⟩
  | shown h _ ih =>
      obtain ⟨ht, hw⟩ := List.forall_mem_cons.1 hw
      cases l with
      | nil =>
          cases hn
          exact absurd ho ht
      | cons t l =>
          cases hn
          obtain ⟨left, next, right, rfl, hop, hm⟩ := ih hw rfl
          exact ⟨_ :: left, next, right, rfl, hop, hm.shown h ht⟩
  | implied hf ht hc rest ih =>
      cases l with
      | nil =>
          cases hn
          exact ⟨[], _, _, rfl, rfl, hf, ht, hc, rfl, (rest.visible hw).symm⟩
      | cons t l =>
          cases hn
          obtain ⟨left, next, right, hts, hop, hm⟩ := ih hw rfl
          exact ⟨left, next, right, hts, hop, hm.unwritten rfl⟩
  | missing _ ih =>
      cases l with
      | nil =>
          cases hn
          exact absurd rfl hk
      | cons t l =>
          cases hn
          obtain ⟨left, next, right, hts, hop, hm⟩ := ih hw rfl
          exact ⟨left, next, right, hts, hop, hm.unwritten rfl⟩

end Lays

theorem Lays.concat {s s' : Delimiters} {ns ts : List Token} {t : Token} (h : Lays s ns ts s')
    (ht : s'.hides t = true) : Lays s ns (ts ++ [t]) (s'.after t) := by
  have hr := h.append (.hidden ht .nil)
  rwa [List.append_nil] at hr

namespace Parser

variable {c : Context} {lvl : Level} {p : Phrase} {k : Kind} {s s' : Delimiters}

structure Ready (c : Context) (p : Phrase) (s : Delimiters) : Prop where
  bars : c = .bars ↔ s.opened.head? = some .bar
  joins : s.filled = true → c.joins p.first.kind = true

/-- The place after a phrase, in front of a token of some kind. Only where an expression ends may
delimiters in it still be open. -/
structure Leaves (k : Kind) (opened : List Kind) (s : Delimiters) : Prop where
  all : k.ends = false → s = ⟨opened, true⟩
  paren : k = .rightParen → s.opened.dropWhile (· == .bar) = opened.dropWhile (· == .bar)

theorem leaves_same (k : Kind) (opened : List Kind) : Leaves k opened ⟨opened, true⟩ :=
  ⟨fun _ => rfl, fun _ => rfl⟩

theorem leaves_end (opened : List Kind) (s : Delimiters) : Leaves .endOfInput opened s where
  all h := by cases h
  paren h := by cases h

theorem not_closes_of_joins (hb : c = .bars ↔ s.opened.head? = some .bar)
    (hj : c.joins k = true) : s.closes k = false := by
  cases k with
  | bar =>
      have ho : s.opened.head? ≠ some .bar := by
        rw [ne_eq, ← hb]
        rintro rfl
        cases hj
      simp [Delimiters.closes, ho]
  | rightParen => cases c <;> cases hj
  | _ => rfl

theorem after_operator {op : Token} (h : op.kind.isOperator = true) (s : Delimiters) :
    s.hides op = false ∧ s.after op = ⟨s.opened, false⟩ := by
  rcases Kind.isOperator_iff.1 h with (h | h) | (h | h) | h <;>
    simp [Delimiters.hides, Delimiters.closes, Delimiters.after, h]

theorem Leaves.operator {op : Token} {opened : List Kind} (h : Leaves op.kind opened s)
    (hop : op.kind.isOperator = true) : s = ⟨opened, true⟩ := by
  refine h.all ?_
  rcases Kind.isOperator_iff.1 hop with (h | h) | (h | h) | h <;> rw [h] <;> rfl

theorem Leaves.operation {op : Token} {s₁ : Delimiters} {ns ns' ts ts' : List Token}
    (hl : Leaves op.kind s.opened s₁) (left : Lays s ns ts s₁) (hop : op.kind.isOperator = true)
    (right : Lays ⟨s.opened, false⟩ ns' ts' s') :
    Lays s (ns ++ op :: ns') (ts ++ op :: ts') s' := by
  obtain rfl := hl.operator hop
  obtain ⟨hh, ha⟩ := after_operator hop ⟨s.opened, true⟩
  exact left.append (.shown hh (ha ▸ right))

theorem Ready.unfilled {opened : List Kind} (h : c = .bars ↔ opened.head? = some .bar)
    (p : Phrase) : Ready c p ⟨opened, false⟩ := ⟨h, nofun⟩

theorem Ready.opens (h : Ready c p s) (hp : p.first.kind = .bar) : s.closes .bar = false := by
  cases hf : s.filled with
  | true => exact not_closes_of_joins h.bars (hp ▸ h.joins hf)
  | false => simp [Delimiters.closes, hf]

theorem Leaves.adjacent {q : Phrase} {s₁ : Delimiters} {ns ns' ts : List Token} {i : Kind}
    (hb : c = .bars ↔ s.opened.head? = some .bar) (hl : Leaves q.first.kind s.opened s₁)
    (left : Lays s ns ts s₁) (hj : c.joins q.first.kind = true)
    (right : Lays ⟨s.opened, true⟩ ns' q.tokens s') :
    Lays s (ns ++ .implied i q.first :: ns') (ts ++ q.tokens) s' := by
  have hs : q.first.kind.startsOperand = true := Context.joins_plain hj
  have hn : q.first.kind.ends = false := by
    generalize q.first.kind = k at *
    cases k <;> first | rfl | cases hs
  obtain rfl := hl.all hn
  obtain ⟨us, hu⟩ := Phrase.exists_tokens_eq (joins_ne_end hj)
  rw [hu] at right ⊢
  exact left.append (.implied rfl hs (not_closes_of_joins hb hj) right)

theorem Fits.lays {m : Strictness} {stop : Position} (h : Fits (m.spare stop) c lvl p k)
    (hs : Ready c p s) : ∃ s', Lays s p.tree.inorder p.tokens s' ∧ Leaves k s.opened s' := by
  induction h generalizing s with
  | term _ ih | power _ ih | application _ ih | factor _ _ ih => exact ih hs
  | sum _ hop _ ih ih' =>
      obtain ⟨s₁, left, hl⟩ := ih ⟨hs.bars, hs.joins⟩
      obtain ⟨s₂, right, hr⟩ := ih' (.unfilled hs.bars _)
      exact ⟨s₂, hl.operation left (Kind.isOperator_iff.2 (.inl hop)) right, hr⟩
  | product _ hop _ ih ih' =>
      obtain ⟨s₁, left, hl⟩ := ih ⟨hs.bars, hs.joins⟩
      obtain ⟨s₂, right, hr⟩ := ih' (.unfilled hs.bars _)
      exact ⟨s₂, hl.operation left (Kind.isOperator_iff.2 (.inr (.inl hop))) right, hr⟩
  | raised _ hop _ ih ih' =>
      obtain ⟨s₁, left, hl⟩ := ih ⟨hs.bars, hs.joins⟩
      obtain ⟨s₂, right, hr⟩ := ih' (.unfilled hs.bars _)
      exact ⟨s₂, hl.operation left (Kind.isOperator_iff.2 (.inr (.inr hop))) right, hr⟩
  | adjacent _ hj _ ih ih' | applied _ _ hj _ ih ih' =>
      obtain ⟨s₁, left, hl⟩ := ih ⟨hs.bars, hs.joins⟩
      obtain ⟨s₂, right, hr⟩ := ih' (s := ⟨s.opened, true⟩) ⟨hs.bars, fun _ => hj⟩
      exact ⟨s₂, hl.adjacent hs.bars left hj right, hr⟩
  | @parens c t p closing i next ht _ closed ih =>
      have hh : s.hides t = true := by simp [Delimiters.hides, ht]
      have ha : s.after t = ⟨.leftParen :: s.opened, false⟩ := by simp [Delimiters.after, ht]
      obtain ⟨s₁, inner, hi⟩ := ih (s := s.after t) (ha ▸ .unfilled (by simp) _)
      rw [ha] at hi
      cases closed with
      | @written t' next hk =>
          have hc : s₁.after t' = ⟨s.opened, true⟩ := by
            simp [Delimiters.after, hk, hi.paren hk]
          have hh' : s₁.hides t' = true := by simp [Delimiters.hides, Delimiters.closes, hk]
          exact ⟨_, .hidden hh (hc ▸ inner.concat hh'), leaves_same _ _⟩
      | assumed hs hn he =>
          rw [Phrase.tokens, Option.toList_none, List.append_nil]
          exact ⟨s₁, .hidden hh inner, fun h => absurd he (by simp [h]), fun hk => absurd hk hn⟩
  | @bars c t p closing i next ht _ closed ih =>
      have ho := hs.opens ht
      have hh : s.hides t = false := by simp [Delimiters.hides, ht, ho]
      have ha : s.after t = ⟨.bar :: s.opened, false⟩ := by simp [Delimiters.after, ht, ho]
      obtain ⟨s₁, inner, hi⟩ := ih (s := s.after t) (ha ▸ .unfilled (by simp) _)
      rw [ha] at hi
      cases closed with
      | @written t' next hk =>
          obtain rfl := hi.all (by rw [hk]; rfl)
          have hc : Delimiters.after ⟨.bar :: s.opened, true⟩ t' = ⟨s.opened, true⟩ := by
            simp [Delimiters.after, Delimiters.closes, hk]
          have hh' : Delimiters.hides ⟨.bar :: s.opened, true⟩ t' = true := by
            simp [Delimiters.hides, Delimiters.closes, hk]
          exact ⟨_, .shown hh (hc ▸ inner.concat hh'), leaves_same _ _⟩
      | assumed hs hn he =>
          rw [Phrase.tokens, Option.toList_none, List.append_nil]
          refine ⟨s₁, .shown hh inner, fun h => absurd he (by simp [h]), ?_⟩
          intro hk
          rw [hi.paren hk]
          exact List.dropWhile_cons_of_pos rfl
  | @sign c t p k ht _ ih =>
      obtain ⟨hh, ha⟩ := after_operator (Kind.isOperator_iff.2 (.inl ht)) s
      obtain ⟨s₁, hl, he⟩ := ih (.unfilled hs.bars _)
      exact ⟨s₁, .shown hh (ha ▸ hl), he⟩
  | @operand c t k ht =>
      have hh : s.hides t = false := by
        rcases ht with ht | ht | ht <;> simp [Delimiters.hides, Delimiters.closes, ht]
      have ha : s.after t = ⟨s.opened, true⟩ := by
        rcases ht with ht | ht | ht <;> simp [Delimiters.after, ht]
      rw [Phrase.tokens_operand ht]
      exact ⟨_, .shown hh .nil, ha ▸ leaves_same _ _⟩
  | missing h =>
      rw [eq_of_spare h]
      exact ⟨s, .missing .nil, leaves_end _ _⟩

end Parser

open Reckon.Parser

variable {o : Options} {text : String} {t : Tree}

theorem Scan.lexeme_ne_empty_of_mem (text : String) :
    ∀ t ∈ (Scan.ofString text).tokens, t.lexeme ≠ "" := by
  intro t ht
  exact (isLexical_of_mem ht).lexeme_ne_empty

theorem exists_lays_of_parse (h : parse o (.ofString text) = .ok t) :
    ∃ k next s', (Scan.ofString text).toList[k]? = some next ∧
      (next.kind = .endOfInput ∨ next.kind = .rightParen ∨ next.kind = .ampersand ∨
        next.kind = .percent) ∧
      (o.strictness = .strict → k = (Scan.ofString text).tokens.length) ∧
      Lays .start t.inorder ((Scan.ofString text).tokens.take k) s' := by
  by_cases hne : (Scan.ofString text).tokens = []
  · rw [parse_nil hne] at h
    cases h
    refine ⟨0, (Scan.ofString text).finish, .start, ?_, .inl rfl, ?_, .missing .nil⟩
    · rw [Scan.toList, hne, List.nil_append, List.getElem?_cons_zero]
    · rw [hne, List.length_nil]
      exact fun _ => rfl
  · obtain ⟨p, rest, hp, -, rfl⟩ := (parse_eq_ok_iff_heads (Scan.ne_end_of_mem text) hne).1 h
    obtain ⟨s', hl, -⟩ := hp.fits.lays (s := .start) (.unfilled (by simp) p)
    refine ⟨p.tokens.length, _, s', hp.getElem_toList, kind_of_closes hp, ?_, ?_⟩
    · intro hs
      rw [hp.tokens, hp.all hs, List.append_nil]
    · rwa [hp.tokens, List.take_left]

/-- All that was written but parentheses and closing bars are nodes, in their order, and an operator
that nobody wrote is at the token its right operand starts with. -/
theorem tree_has_its_tokens (o : Options) (text : String) (t : Tree)
    (h : parse o (.ofString text) = .ok t) :
    ∃ k next, (Scan.ofString text).toList[k]? = some next ∧
      (next.kind = .endOfInput ∨ next.kind = .rightParen ∨ next.kind = .ampersand ∨
        next.kind = .percent) ∧
      (o.strictness = .strict → k = (Scan.ofString text).tokens.length) ∧
      written t.inorder = Delimiters.start.visible ((Scan.ofString text).tokens.take k) ∧
      ∀ l op r, t.inorder = l ++ op :: r → op.lexeme = "" → op.kind ≠ .endOfInput →
        ∃ left next right, (Scan.ofString text).tokens.take k = left ++ next :: right ∧
          op.size = 0 ∧ op.position = next.position ∧
          Meets .start left next right l r := by
  obtain ⟨k, next, s', hk, hn, hs, hl⟩ := exists_lays_of_parse h
  have hw : ∀ t ∈ (Scan.ofString text).tokens.take k, t.lexeme ≠ "" := by
    intro t ht
    exact Scan.lexeme_ne_empty_of_mem text t (List.mem_of_mem_take ht)
  refine ⟨k, next, hk, hn, hs, hl.visible hw, ?_⟩
  intro l op r hn ho hk
  obtain ⟨left, next, right, ht, hop, hm⟩ := hl.exists_meets hw hn ho hk
  refine ⟨left, next, right, ht, ?_, ?_, hm⟩
  · rw [hop, Token.implied]
  · rw [hop, Token.implied]

theorem tree_tokens_bars_and_parens :
    ∃ t, parse ⟨.strict, 9⟩ (.ofString "2|x|(y)") = .ok t ∧
      written t.inorder = Delimiters.start.visible (Scan.ofString "2|x|(y)").tokens ∧
      (written t.inorder).map Token.lexeme = ["2", "|", "x", "y"] := by
  have h : ∃ t, parse ⟨.strict, 9⟩ (.ofString "2|x|(y)") = .ok t := ⟨_, rfl⟩
  obtain ⟨t, h⟩ := h
  obtain ⟨k, next, -, -, hk, hw, -⟩ := tree_has_its_tokens _ _ t h
  rw [hk rfl, List.take_length] at hw
  exact ⟨t, h, hw, by rw [hw]; decide⟩

end Reckon
