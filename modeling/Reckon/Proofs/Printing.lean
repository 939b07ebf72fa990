import Reckon.Proofs.Enclosure
import Reckon.Proofs.Gaps

namespace Reckon

namespace Tree

def isNamed : Tree → Bool
  | leaf t => t.kind = .identifier
  | binary op a _ => op.kind = .juxtaposition && a.isBareName
  | _ => false

def isHeaded : Tree → Bool
  | binary op a b => (binary op a b).isNamed || (op.kind = .power && a.isNamed)
  | t => t.isNamed

/-- Trees with tokens that read as what they are. An operator without a text stands between two
operands next to each other: it is a product, unless a name is applied or a name follows. -/
inductive Proper : Tree → Prop
  | leaf {t} (hk : t.kind = .identifier ∨ t.kind = .integer ∨ t.kind = .float)
      (hl : t.IsLexical) : Proper (.leaf t)
  | unary {op a} (hk : op.kind = .plus ∨ op.kind = .minus ∨ op.kind = .bar) (hl : op.IsLexical)
      (ha : Proper a) : Proper (.unary op a)
  | operation {op a b} (hk : op.kind.isOperator = true) (hl : op.IsLexical) (ha : Proper a)
      (hb : Proper b) : Proper (.binary op a b)
  | product {op a b} (hk : op.kind = .times) (hl : op.lexeme = "") (hn : a.isBareName = false)
      (ha : Proper a) (hb : Proper b) : Proper (.binary op a b)
  | juxtaposition {op a b} (hk : op.kind = .juxtaposition) (hl : op.lexeme = "")
      (hn : a.isBareName = true ∨ b.isHeaded = true) (ha : Proper a) (hb : Proper b) :
      Proper (.binary op a b)

def asOperand : Tree → String → String
  | leaf _, text => text
  | _, text => inParens text

/-- The print of a tree; with `headed`, the base of a power has no parentheses. -/
def printAs : Bool → Tree → String
  | _, leaf t => t.lexeme
  | _, unary op a =>
    op.lexeme ++ a.asOperand (a.printAs false) ++ if op.kind = .bar then "|" else ""
  | headed, binary op a b =>
    if op.lexeme ≠ "" then
      (if headed then a.printAs false else a.asOperand (a.printAs false)) ++ op.lexeme ++
        b.asOperand (b.printAs false)
    else if op.kind = .juxtaposition ∧ a.isBareName = false then
      a.asOperand (a.printAs false) ++ " " ++ b.printAs true
    else a.asOperand (a.printAs false) ++ inParens (b.printAs false)
  | _, rightOnly op b => op.lexeme ++ b.asOperand (b.printAs false)

def print (t : Tree) : String := t.printAs false

end Tree

namespace Parser

variable {c : Context} {lvl : Level} {p q : Phrase} {k : Kind}

theorem Fits.eq_operand (h : Fits none c .factor p k) (hi : p.first.kind = .identifier) :
    ∃ t : Token, p = .operand t ∧ t.kind = .identifier := by
  cases h with
  | operand => exact ⟨_, rfl, hi⟩
  | parens ht | bars ht =>
      rw [Phrase.first, ht] at hi
      cases hi
  | sign ht =>
      rw [Phrase.first] at hi
      rcases ht with ht | ht <;> (rw [ht] at hi; cases hi)
  | missing h => cases h

theorem Fits.isNamed (h : Fits none c .application p k) (hi : p.first.kind = .identifier) :
    p.tree.isNamed = true := by
  cases h with
  | applied _ hp => simp [Phrase.tree, Tree.isNamed, Token.implied, hp]
  | factor h =>
      obtain ⟨t, rfl, ht⟩ := h.eq_operand hi
      simp [Phrase.tree, Tree.isNamed, ht]

theorem Fits.isHeaded (h : Fits none c .power p k) (hi : p.first.kind = .identifier) :
    p.tree.isHeaded = true := by
  cases h with
  | application h =>
      have hn := h.isNamed hi
      cases ht : p.tree <;> rw [ht] at hn <;> simp_all [Tree.isHeaded]
  | raised base hop =>
      have hn := base.isNamed hi
      simp [Phrase.tree, Tree.isHeaded, hn, hop]

theorem Fits.proper (h : Fits none c lvl p k) (hl : ∀ t ∈ p.tokens, t.IsLexical) :
    p.tree.Proper := by
  induction h with
  | term _ ih | power _ ih | application _ ih | factor _ _ ih => exact ih hl
  | parens _ _ _ ih =>
      rw [Phrase.tokens, List.forall_mem_cons, List.forall_mem_append] at hl
      exact ih hl.2.1
  | sum _ hop _ ih ih' =>
      rw [Phrase.tokens, List.forall_mem_append, List.forall_mem_cons] at hl
      obtain ⟨hp, ho, hq⟩ := hl
      exact .operation (Kind.isOperator_iff.2 (.inl hop)) ho (ih hp) (ih' hq)
  | @product _ _ op _ _ _ hop _ ih ih' =>
      rw [Phrase.tokens, List.forall_mem_append, List.forall_mem_append] at hl
      obtain ⟨hp, ho, hq⟩ := hl
      have ho := ho op (List.mem_singleton_self op)
      exact .operation (Kind.isOperator_iff.2 (.inr (.inl hop))) ho (ih hp) (ih' hq)
  | raised _ hop _ ih ih' =>
      rw [Phrase.tokens, List.forall_mem_append, List.forall_mem_cons] at hl
      obtain ⟨hp, ho, hq⟩ := hl
      exact .operation (Kind.isOperator_iff.2 (.inr (.inr hop))) ho (ih hp) (ih' hq)
  | @adjacent c p q k left hj right ih ih' =>
      rw [Phrase.tokens, List.forall_mem_append, List.forall_mem_append] at hl
      obtain ⟨hp, _, hq⟩ := hl
      show Tree.Proper (.binary (between q.first) p.tree q.tree)
      by_cases hi : q.first.kind = .identifier
      · have hk : (between q.first).kind = .juxtaposition := if_pos hi
        exact .juxtaposition hk rfl (.inr (right.isHeaded hi)) (ih hp) (ih' hq)
      · have hk : (between q.first).kind = .times := if_neg hi
        exact .product hk rfl (left.not_bareName hj) (ih hp) (ih' hq)
  | applied _ hn _ _ ih ih' =>
      rw [Phrase.tokens, List.forall_mem_append] at hl
      exact .juxtaposition rfl rfl (.inl hn) (ih hl.1) (ih' hl.2)
  | bars ht _ _ ih =>
      rw [Phrase.tokens, List.forall_mem_cons, List.forall_mem_append] at hl
      exact .unary (.inr (.inr ht)) hl.1 (ih hl.2.1)
  | sign hop _ ih =>
      rw [Phrase.tokens, List.forall_mem_cons] at hl
      exact .unary (hop.imp_right .inl) hl.1 (ih hl.2)
  | @operand c t k ht =>
      rw [Phrase.tokens_operand ht, List.forall_mem_singleton] at hl
      exact .leaf ht hl
  | missing h => cases h

structure Phrase.Spells (text : String) (t : Tree) (p : Phrase) : Prop where
  words : words text = p.tokens.map Token.anywhere
  tree : p.tree.anywhere = t.anywhere

def PrintsAlone (t : Tree) : Prop :=
  ∃ p : Phrase, Fits none .plain .expression p .endOfInput ∧ p.Spells t.print t

def PrintsAsOperand (t : Tree) : Prop :=
  ∃ p : Phrase, (∀ c k, Fits none c .factor p k) ∧ p.Spells (t.asOperand t.print) t

/-- What the print of a tree is read as: alone, as an operand, and where a name has to stand in
front. -/
structure Printed (t : Tree) : Prop where
  alone : PrintsAlone t
  operand : PrintsAsOperand t
  named (h : t.isNamed = true) : ∃ p : Phrase, p.first.kind = .identifier ∧
    (∀ k, Context.plain.joins k = false → Fits none .plain .application p k) ∧ p.Spells t.print t
  headed (h : t.isHeaded = true) : ∃ p : Phrase, p.first.kind = .identifier ∧
    Fits none .plain .power p .endOfInput ∧ p.Spells (t.printAs true) t

namespace Phrase.Spells

variable {text text' : String} {a b : Tree} {op : Token}

theorem wrapped (h : p.Spells text a) : p.wrapped.Spells (inParens text) a where
  words := by rw [words_inParens, map_anywhere_tokens_wrapped, h.words]
  tree := h.tree

theorem sign (h : p.Spells text a) (ho : op.IsSymbol) :
    (Phrase.sign op p).Spells (op.lexeme ++ text) (.unary op a) where
  words := by rw [words_symbol_left ho, tokens, List.map_cons, h.words]
  tree := congrArg (Tree.unary op.anywhere) h.tree

theorem bars (h : p.Spells text a) (ho : op.IsSymbol) :
    (Phrase.bars op p (some (.word .bar "|"))).Spells (op.lexeme ++ text ++ "|") (.unary op a) where
  words := by
    have hr := words_symbol Token.isSymbol_bar (op.lexeme ++ text) ""
    rw [String.append_empty] at hr
    refine hr.trans ?_
    rw [words_symbol_left ho, tokens, List.map_cons, List.map_append, h.words]
    rfl
  tree := congrArg (Tree.unary op.anywhere) h.tree

theorem operation (h : p.Spells text a) (ho : op.IsSymbol) (h' : q.Spells text' b) :
    (p.operation op q).Spells (text ++ op.lexeme ++ text') (.binary op a b) where
  words := by
    rw [words_symbol ho, tokens_operation, List.map_append, List.map_cons, h.words, h'.words]
  tree := by rw [tree_operation, Tree.anywhere, Tree.anywhere, h.tree, h'.tree]

theorem next_wrapped (h : p.Spells text a) (h' : q.Spells text' b) (hl : op.lexeme = "")
    (hk : op.kind = if a.isBareName then .juxtaposition else .times) :
    (p.next q.wrapped).Spells (text ++ inParens text') (.binary op a b) where
  words := by
    rw [words_append_inParens, tokens_next, List.map_append, h.words, h'.wrapped.words]
  tree := by
    rw [anywhere_tree_next_wrapped, Tree.isBareName_congr h.tree, ← hk, ← hl, h.tree, h'.tree]
    rfl

theorem adjacent (h : p.Spells text a) (h' : q.Spells text' b) (hi : q.first.kind = .identifier)
    (hl : op.lexeme = "") (hk : op.kind = .juxtaposition) :
    (Phrase.product p none q).Spells (text ++ " " ++ text') (.binary op a b) where
  words := by
    rw [words_blank, tokens, Option.toList_none, List.nil_append, List.map_append, h.words,
      h'.words]
  tree := by
    have hb : (between q.first).anywhere = op.anywhere := by
      rw [between, if_pos hi, Token.anywhere, Token.anywhere, hl, hk]
      rfl
    rw [Phrase.tree, Option.getD_none, Tree.anywhere, Tree.anywhere, hb, h.tree, h'.tree]

end Phrase.Spells

theorem PrintsAlone.operand {t : Tree} (h : PrintsAlone t)
    (ht : t.asOperand t.print = inParens t.print) : PrintsAsOperand t := by
  obtain ⟨p, hp, hs⟩ := h
  exact ⟨p.wrapped, fun c k => hp.wrapped c k, ht ▸ hs.wrapped⟩

end Parser

open Reckon.Parser

namespace Tree

variable {a b : Tree} {t op : Token}

theorem printed_leaf (hk : t.kind = .identifier ∨ t.kind = .integer ∨ t.kind = .float)
    (hl : t.IsLexical) : Printed (.leaf t) := by
  have hf (c : Context) (k : Kind) : Fits none c .factor (.operand t) k := .operand hk
  have hs : (Phrase.operand t).Spells t.lexeme (.leaf t) :=
    ⟨by rw [hl.words_lexeme, Phrase.tokens_operand hk, List.map_singleton], rfl⟩
  constructor
  case alone => exact ⟨_, .term ((hf _ _).factor_term rfl), hs⟩
  case operand => exact ⟨_, hf, hs⟩
  case named =>
    intro h
    have hi : t.kind = .identifier := of_decide_eq_true h
    exact ⟨.operand t, hi, fun k hk => (hf _ k).factor_stop hk, hs⟩
  case headed =>
    intro h
    have hi : t.kind = .identifier := of_decide_eq_true h
    exact ⟨.operand t, hi, .application ((hf _ _).factor_stop rfl), hs⟩

theorem printed_unary (hk : op.kind = .plus ∨ op.kind = .minus ∨ op.kind = .bar)
    (hl : op.IsLexical) (ha : Printed a) : Printed (.unary op a) := by
  have ho : op.IsSymbol := by
    rcases hk with hk | hk | hk <;> exact hl.isSymbol (by simp [hk]) (by simp [hk]) (by simp [hk])
  have hw : PrintsAlone (.unary op a) := by
    obtain ⟨p, hp, hs⟩ := ha.operand
    by_cases hb : op.kind = .bar
    · have hf : Fits none .plain .factor (.bars op p (some (.word .bar "|"))) .endOfInput :=
        .bars hb (.term ((hp _ _).factor_term rfl)) (.written rfl)
      have ht : print (.unary op a) = op.lexeme ++ a.asOperand a.print ++ "|" := by
        rw [print, printAs, if_pos hb]
        rfl
      exact ⟨_, .term (hf.factor_term rfl), ht ▸ hs.bars ho⟩
    · have hf : Fits none .plain .factor (.sign op p) .endOfInput := by
        refine .sign ?_ ((hp _ _).factor_stop rfl)
        simpa [hb] using hk
      have ht : print (.unary op a) = op.lexeme ++ a.asOperand a.print := by
        rw [print, printAs, if_neg hb, String.append_empty]
        rfl
      exact ⟨_, .term (hf.factor_term rfl), ht ▸ hs.sign ho⟩
  exact ⟨hw, hw.operand rfl, nofun, nofun⟩

theorem printed_operation (hk : op.kind.isOperator = true) (hl : op.IsLexical) (ha : Printed a)
    (hb : Printed b) : Printed (.binary op a b) := by
  have ho : op.IsSymbol := by
    refine hl.isSymbol ?_ ?_ ?_ <;> (intro h; rw [h] at hk; cases hk)
  have hne : op.lexeme ≠ "" := by
    obtain ⟨c, _, hc⟩ := ho
    rw [hc]
    exact String.singleton_ne_empty
  obtain ⟨q, hq, hs'⟩ := hb.operand
  have hw : PrintsAlone (.binary op a b) := by
    obtain ⟨p, hp, hs⟩ := ha.operand
    have ht : print (.binary op a b) =
        a.asOperand a.print ++ op.lexeme ++ b.asOperand b.print := by
      rw [print, printAs, if_pos hne]
      rfl
    exact ⟨_, Fits.operation (hp _ _) (hq _ _) hk rfl, ht ▸ hs.operation ho hs'⟩
  have hj : op.kind ≠ .juxtaposition := by
    intro h
    rw [h] at hk
    cases hk
  refine ⟨hw, hw.operand rfl, ?_, ?_⟩
  · intro h
    exact absurd h (by simp [isNamed, hj])
  · intro h
    obtain ⟨hp, hn⟩ : op.kind = .power ∧ a.isNamed = true := by
      simpa [isHeaded, isNamed, hj] using h
    obtain ⟨p, hi, hf, hs⟩ := ha.named hn
    have hd : p.operation op q = .power p op q := by rw [Phrase.operation, hp]
    have ht : printAs true (.binary op a b) = a.print ++ op.lexeme ++ b.asOperand b.print := by
      rw [printAs, if_pos hne, if_pos rfl]
      rfl
    refine ⟨.power p op q, hi, ?_, hd ▸ ht ▸ hs.operation ho hs'⟩
    exact .raised (hf _ (Context.joins_operator hk)) hp (.application ((hq _ _).factor_stop rfl))

theorem exists_callee (ha : Printed a) (hn : a.isBareName = true) :
    ∃ t : Token, t.kind = .identifier ∧ (Phrase.operand t).Spells (a.asOperand a.print) a := by
  cases a with
  | leaf u =>
      obtain ⟨p, hi, hp, hs⟩ := ha.named hn
      cases hp .endOfInput rfl with
      | factor h =>
          obtain ⟨t, rfl, ht⟩ := h.eq_operand hi
          exact ⟨t, ht, hs⟩
      | applied => cases hs.tree
  | unary | binary | rightOnly => cases hn

theorem printed_next (hl : op.lexeme = "")
    (hk : op.kind = if a.isBareName then .juxtaposition else .times) (ha : Printed a)
    (hb : Printed b) : Printed (.binary op a b) := by
  obtain ⟨q, hq, hs'⟩ := hb.alone
  have ht (headed : Bool) : printAs headed (.binary op a b) =
      a.asOperand a.print ++ inParens b.print := by
    rw [printAs, if_neg (not_not.2 hl), if_neg]
    · rfl
    · rintro ⟨hj, hn⟩
      rw [hj, hn] at hk
      cases hk
  cases hn : a.isBareName with
  | true =>
      obtain ⟨t, hi, hs⟩ := exists_callee ha hn
      have hc (k : Kind) : Fits none .plain .factor (.operand t) k := .operand (.inl hi)
      have hp : (Phrase.operand t).tree.isBareName = true := decide_eq_true hi
      have hf (k : Kind) (hk : Context.plain.joins k = false) :
          Fits none .plain .application (.applied (.operand t) q.wrapped) k :=
        .applied (hc _) hp rfl ((hq.wrapped _ _).factor_stop hk)
      have hd : (Phrase.operand t).next q.wrapped = .applied (.operand t) q.wrapped := if_pos hp
      have hs (headed : Bool) : (Phrase.applied (.operand t) q.wrapped).Spells
          (printAs headed (.binary op a b)) (.binary op a b) := by
        rw [ht, ← hd]
        exact hs.next_wrapped hs' hl hk
      have hw : PrintsAlone (.binary op a b) :=
        ⟨_, .term (.power (.application (hf .endOfInput rfl))), hs false⟩
      refine ⟨hw, hw.operand rfl, fun _ => ?_, fun _ => ?_⟩
      · exact ⟨.applied (.operand t) q.wrapped, hi, hf, hs false⟩
      · exact ⟨.applied (.operand t) q.wrapped, hi, .application (hf _ rfl), hs true⟩
  | false =>
      obtain ⟨p, hp, hs⟩ := ha.operand
      have hf : Fits none .plain .term (p.next q.wrapped) .endOfInput :=
        Fits.next (hp _) (hq.wrapped _ _) rfl rfl
      have hw : PrintsAlone (.binary op a b) := by
        refine ⟨_, .term hf, ?_⟩
        rw [print, ht]
        exact hs.next_wrapped hs' hl hk
      rw [hn] at hk
      refine ⟨hw, hw.operand rfl, fun h => ?_, fun h => ?_⟩
      · exact absurd h (by simp [isNamed, hk])
      · exact absurd h (by simp [isHeaded, isNamed, hk])

theorem printed_adjacent (hk : op.kind = .juxtaposition) (hl : op.lexeme = "")
    (hn : a.isBareName = false) (hh : b.isHeaded = true) (ha : Printed a)
    (hb : Printed b) : Printed (.binary op a b) := by
  obtain ⟨p, hp, hs⟩ := ha.operand
  obtain ⟨q, hi, hq, hs'⟩ := hb.headed hh
  have ht : print (.binary op a b) = a.asOperand a.print ++ " " ++ b.printAs true := by
    rw [print, printAs, if_neg (not_not.2 hl), if_pos ⟨hk, hn⟩]
    rfl
  have hb : p.tree.isBareName = false := (isBareName_congr hs.tree).trans hn
  have hf : Fits none .plain .term (.product p none q) .endOfInput := by
    refine .adjacent (.power (.application (.factor (hp _ _) ?_))) (by rw [hi]; rfl) hq
    rw [hb, Bool.false_and]
  have hw : PrintsAlone (.binary op a b) := ⟨_, Fits.term hf, ht ▸ hs.adjacent hs' hi hl hk⟩
  refine ⟨hw, hw.operand rfl, fun h => ?_, fun h => ?_⟩
  · exact absurd h (by simp [isNamed, hn])
  · exact absurd h (by simp [isHeaded, isNamed, hn, hk])

theorem Proper.printed {t : Tree} (h : t.Proper) : Printed t := by
  induction h with
  | leaf hk hl => exact printed_leaf hk hl
  | unary hk hl _ ih => exact printed_unary hk hl ih
  | operation hk hl _ _ ih ih' => exact printed_operation hk hl ih ih'
  | product hk hl hn _ _ ih ih' => exact printed_next hl (by rw [hk, hn]; rfl) ih ih'
  | @juxtaposition op a b hk hl hn _ _ ih ih' =>
      cases ha : a.isBareName with
      | true => exact printed_next hl (by rw [hk, ha]; rfl) ih ih'
      | false => exact printed_adjacent hk hl ha (by simpa [ha] using hn) ih ih'

end Tree

/-- The trees that are read are the proper ones, and none of them is written in vain. -/
theorem parse_print :
    (∀ (text : String) (d : Nat) (t : Tree), (Scan.ofString text).tokens ≠ [] →
        parse ⟨.strict, d⟩ (.ofString text) = .ok t → t.Proper) ∧
      ∀ t : Tree, t.Proper → (∃ n, ∀ d ≥ n, ParsesAs d t.print t) ∧
        ∀ d, ¬IsTooDeep (parse ⟨.strict, d⟩ (.ofString t.print)) → ParsesAs d t.print t := by
  constructor
  · intro text d t hne h
    obtain ⟨p, hp, ht, rfl, _⟩ := exists_phrase_of_parse hne h
    exact hp.proper fun u hu => Scan.isLexical_of_mem (ht ▸ hu)
  · intro t ht
    obtain ⟨p, hp, hs⟩ := ht.printed.alone
    refine ⟨⟨max p.tree.height p.nesting, ?_⟩, ?_⟩
    · intro d hd
      exact ParsesAs.congr (parse_words hp hs.words hd) hs.tree
    · intro d hd
      exact (parsesAs_of_words hp hs.words hd).congr hs.tree

theorem print_number_before_call :
    ∃ t, parse ⟨.strict, 8⟩ (.ofString "2f(x)^3") = .ok t ∧ t.Proper ∧ t.print = "2 f(x)^3" ∧
      ParsesAs 8 t.print t := by
  have hne : (Scan.ofString "2f(x)^3").tokens ≠ [] := by decide
  have h : parse ⟨.strict, 8⟩ (.ofString "2f(x)^3") =
      .ok (.binary ⟨.juxtaposition, "", 0, ⟨1, 1, 2⟩⟩ (.leaf ⟨.integer, "2", 1, ⟨0, 1, 1⟩⟩)
        (.binary ⟨.power, "^", 1, ⟨5, 1, 6⟩⟩
          (.binary ⟨.juxtaposition, "", 0, ⟨2, 1, 3⟩⟩ (.leaf ⟨.identifier, "f", 1, ⟨1, 1, 2⟩⟩)
            (.leaf ⟨.identifier, "x", 1, ⟨3, 1, 4⟩⟩))
          (.leaf ⟨.integer, "3", 1, ⟨6, 1, 7⟩⟩))) := by decide +kernel
  have hp := parse_print.1 _ _ _ hne h
  refine ⟨_, h, hp, by decide +kernel, (parse_print.2 _ hp).2 8 fun hd => ?_⟩
  have hl : (Scan.ofString "2 f(x)^3").tokens.length = 7 := by decide +kernel
  exact absurd (hl ▸ hd.maxDepth_le) (by decide)

end Reckon
