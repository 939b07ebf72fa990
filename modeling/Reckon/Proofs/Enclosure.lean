import Reckon.Proofs.Rewording

namespace Reckon

def Kind.isOperator : Kind → Bool
  | plus | minus | times | divide | power => true
  | _ => false

theorem Kind.isOperator_iff {k : Kind} :
    k.isOperator = true ↔ (k = plus ∨ k = minus) ∨ (k = times ∨ k = divide) ∨ k = power := by
  cases k <;> simp [isOperator]

namespace Parser

theorem Context.joins_operator {c : Context} {k : Kind} (h : k.isOperator = true) :
    c.joins k = false := by
  rcases Kind.isOperator_iff.1 h with (rfl | rfl) | (rfl | rfl) | rfl <;> cases c <;> rfl

theorem Context.joins_plain {c : Context} {k : Kind} (h : c.joins k = true) :
    Context.plain.joins k = true := by
  cases c with
  | plain => exact h
  | bars => cases k <;> first | rfl | cases h

variable {c c' : Context} {lvl : Level} {p q : Phrase} {k k' : Kind} {op : Token}

/-- A phrase stays one in a context and before a token where no more starts an operand than in its
own context and before its own token. -/
theorem Fits.moved (h : Fits none c lvl p k) (hc : ∀ i, c.joins i = true → c'.joins i = true)
    (hk : c.joins k = false → c'.joins k' = false) : Fits none c' lvl p k' := by
  induction h generalizing k' with
  | term _ ih => exact .term (ih hc hk)
  | sum _ hop _ ih ih' =>
      have ho := Context.joins_operator (c := c') (Kind.isOperator_iff.2 (.inl hop))
      exact .sum (ih hc fun _ => ho) hop (ih' hc hk)
  | power _ ih => exact .power (ih hc hk)
  | product _ hop _ ih ih' =>
      have ho := Context.joins_operator (c := c') (Kind.isOperator_iff.2 (.inr (.inl hop)))
      exact .product (ih hc fun _ => ho) hop (ih' hc hk)
  | adjacent _ hj _ ih ih' => exact .adjacent (ih hc (by simp [hj])) (hc _ hj) (ih' hc hk)
  | application _ ih => exact .application (ih hc hk)
  | raised _ hop _ ih ih' =>
      have ho := Context.joins_operator (c := c') (Kind.isOperator_iff.2 (.inr (.inr hop)))
      exact .raised (ih hc fun _ => ho) hop (ih' hc hk)
  | factor _ hn ih =>
      refine .factor (ih hc hk) ?_
      rw [Bool.and_eq_false_iff] at hn ⊢
      exact hn.imp_right hk
  | applied _ hp hj _ ih ih' => exact .applied (ih hc (by simp [hj])) hp (hc _ hj) (ih' hc hk)
  | parens ht inner closed =>
      obtain ⟨t, rfl, hc, rfl⟩ := closed.eq_written
      exact .parens ht inner (.written hc)
  | bars ht inner closed =>
      obtain ⟨t, rfl, hc, rfl⟩ := closed.eq_written
      exact .bars ht inner (.written hc)
  | sign ht _ ih => exact .sign ht (ih hc hk)
  | operand ht => exact .operand ht
  | missing h => cases h

theorem Fits.before_stop (h : Fits none c lvl p k) (hk : c.joins k' = false) :
    Fits none c lvl p k' :=
  h.moved (fun _ => id) fun _ => hk

theorem Fits.plain_stop (h : Fits none c lvl p k) (hk : Context.plain.joins k' = false) :
    Fits none .plain lvl p k' :=
  h.moved (fun _ => Context.joins_plain) fun _ => hk

def Phrase.wrapped (p : Phrase) : Phrase :=
  .parens (.word .leftParen "(") p (some (.word .rightParen ")"))

@[simp] theorem Phrase.tree_wrapped (p : Phrase) : p.wrapped.tree = p.tree := rfl

@[simp] theorem Phrase.nesting_wrapped (p : Phrase) : p.wrapped.nesting = p.nesting + 1 :=
  nesting_parens _ p _

theorem Phrase.map_anywhere_tokens_wrapped (p : Phrase) :
    p.wrapped.tokens.map Token.anywhere =
      .word .leftParen "(" :: (p.tokens.map Token.anywhere ++ [.word .rightParen ")"]) := by
  rw [wrapped, tokens, List.map_cons, List.map_append]
  rfl

theorem Fits.wrapped (h : Fits none c' .expression p k') (c : Context) (k : Kind) :
    Fits none c .factor p.wrapped k :=
  .parens rfl (h.plain_stop rfl) (.written rfl)

theorem Fits.factor_stop (h : Fits none c .factor p k) (hk : c.joins k = false) :
    Fits none c .application p k :=
  .factor h (by rw [hk, Bool.and_false])

theorem Fits.factor_term (h : Fits none c .factor p k) (hk : c.joins k = false) :
    Fits none c .term p k :=
  .power (.application (h.factor_stop hk))

def Phrase.operation (p : Phrase) (op : Token) (q : Phrase) : Phrase :=
  match op.kind with
  | .times | .divide => .product p (some op) q
  | .power => .power p op q
  | _ => .sum p op q

namespace Phrase

@[simp] theorem tree_operation (p : Phrase) (op : Token) (q : Phrase) :
    (p.operation op q).tree = .binary op p.tree q.tree := by
  unfold operation
  split <;> rfl

@[simp] theorem tokens_operation (p : Phrase) (op : Token) (q : Phrase) :
    (p.operation op q).tokens = p.tokens ++ op :: q.tokens := by
  unfold operation
  split <;> rfl

theorem nesting_operation_le (p : Phrase) (op : Token) (q : Phrase) :
    (p.operation op q).nesting ≤ max p.nesting (q.nesting + 1) := by
  unfold operation
  split <;> simp only [nesting_product, nesting_power, nesting_sum] <;> omega

end Phrase

theorem Fits.operation (h : Fits none c .factor p op.kind) (h' : Fits none c .factor q k)
    (hop : op.kind.isOperator = true) (hk : c.joins k = false) :
    Fits none c .expression (p.operation op q) k := by
  have hj := Context.joins_operator (c := c) hop
  unfold Phrase.operation
  rcases Kind.isOperator_iff.1 hop with hop | hop | hop
  · have hs : Fits none c .expression (.sum p op q) k :=
      .sum (.term (h.factor_term hj)) hop (h'.factor_term hk)
    rcases hop with hop | hop <;> simpa only [hop] using hs
  · have hs : Fits none c .expression (.product p (some op) q) k :=
      .term (.product (h.factor_term hj) hop (.application (h'.factor_stop hk)))
    rcases hop with hop | hop <;> simpa only [hop] using hs
  · have hs : Fits none c .expression (.power p op q) k :=
      .term (.power (.raised (h.factor_stop hj) hop (.application (h'.factor_stop hk))))
    simpa only [hop] using hs

def Phrase.next (p q : Phrase) : Phrase :=
  if p.tree.isBareName then .applied p q else .product p none q

namespace Phrase

@[simp] theorem tokens_next (p q : Phrase) : (p.next q).tokens = p.tokens ++ q.tokens := by
  unfold next
  split <;> rfl

theorem nesting_next_le (p q : Phrase) :
    (p.next q).nesting ≤ max p.nesting (q.nesting + 1) := by
  unfold next
  split <;> simp only [nesting_product, nesting_applied] <;> omega

theorem anywhere_tree_next_wrapped (p q : Phrase) :
    (p.next q.wrapped).tree.anywhere =
      .binary (.word (if p.tree.isBareName then .juxtaposition else .times) "")
        p.tree.anywhere q.tree.anywhere := by
  unfold next
  split <;> rfl

end Phrase

theorem Fits.next (h : ∀ k, Fits none c .factor p k) (h' : Fits none c .factor q k)
    (hj : c.joins q.first.kind = true) (hk : c.joins k = false) :
    Fits none c .term (p.next q) k := by
  unfold Phrase.next
  split
  · next hp => exact .power (.application (.applied (h _) hp hj (h'.factor_stop hk)))
  · next hp =>
      refine .adjacent (.power (.application (.factor (h _) ?_))) hj
        (.application (h'.factor_stop hk))
      rw [Bool.eq_false_iff.2 hp, Bool.false_and]

/-- A phrase that a text is made of, no deeper than a limit. -/
structure Phrase.Whole (d : Nat) (text : String) (p : Phrase) : Prop where
  fits : Fits none .plain .expression p .endOfInput
  words : words text = p.tokens.map Token.anywhere
  height : p.tree.height ≤ d
  nesting : p.nesting ≤ d

end Parser

open Reckon.Parser

def ParsesAs (d : Nat) (text : String) (t : Tree) : Prop :=
  ∃ u, parse ⟨.strict, d⟩ (.ofString text) = .ok u ∧ u.anywhere = t.anywhere

variable {d : Nat} {s t text : String} {a b u : Tree} {p q : Phrase} {op : Token}

theorem ParsesAs.congr {t u : Tree} (h : ParsesAs d text t) (ht : t.anywhere = u.anywhere) :
    ParsesAs d text u := by
  obtain ⟨v, hv, ha⟩ := h
  exact ⟨v, hv, ha.trans ht⟩

theorem exists_whole_of_parse (hne : (Scan.ofString text).tokens ≠ [])
    (h : parse ⟨.strict, d⟩ (.ofString text) = .ok a) :
    ∃ p : Phrase, p.Whole d text ∧ p.tree = a := by
  obtain ⟨p, hp, ht, ha, hd⟩ := exists_phrase_of_parse hne h
  exact ⟨p, ⟨hp, by rw [words, ht], Nat.le_trans (Nat.le_max_left _ _) hd,
    Nat.le_trans (Nat.le_max_right _ _) hd⟩, ha⟩

namespace Parser.Phrase.Whole

theorem parsesAs (h : p.Whole d text) : ParsesAs d text p.tree :=
  parse_words h.fits h.words (Nat.max_le.2 ⟨h.height, h.nesting⟩)

theorem of_words (hp : Fits none .plain .expression p .endOfInput)
    (hw : Reckon.words text = p.tokens.map Token.anywhere)
    (hd : ¬IsTooDeep (parse ⟨.strict, d⟩ (.ofString text))) : p.Whole d text := by
  obtain ⟨q, hq, ht, ha⟩ := hp.reword hw
  have hq : q.Heads .strict (.ofString text) [] :=
    ⟨hq, by rw [ht, List.append_nil], rfl, fun _ => rfl⟩
  have hne : (Scan.ofString text).tokens ≠ [] := ht ▸ hq.fits.tokens_ne_nil
  obtain ⟨limit, -, result, h⟩ := exists_threshold .strict (.ofString text)
  obtain ⟨-, hl⟩ := h.of_heads hq (Scan.ne_end_of_mem text) hne
  rw [Tree.height_congr ha.tree, ha.nesting] at hl
  have hle : limit ≤ d := by
    by_contra hlt
    obtain ⟨at_, hr⟩ := h.refused d (Nat.lt_of_not_le hlt)
    exact hd ⟨d, at_, hr⟩
  obtain ⟨hh, hn⟩ := Nat.max_le.1 (hl ▸ hle)
  exact ⟨hp, hw, hh, hn⟩

theorem wrapped (h : p.Whole d s) : p.wrapped.Whole (d + 2) (inParens s) where
  fits := .term ((h.fits.wrapped _ _).factor_term rfl)
  words := by rw [words_inParens, map_anywhere_tokens_wrapped, h.words]
  height := Nat.le_add_right_of_le h.height
  nesting := by
    have hn := h.nesting
    rw [nesting_wrapped]
    omega

theorem sign (h : p.Whole d s) (ho : op.IsSymbol) (hk : op.kind = .plus ∨ op.kind = .minus) :
    (Phrase.sign op p.wrapped).Whole (d + 2) (op.lexeme ++ inParens s) where
  fits := by
    have hs : Fits none .plain .factor (.sign op p.wrapped) .endOfInput :=
      .sign hk ((h.fits.wrapped _ _).factor_stop rfl)
    exact .term (hs.factor_term rfl)
  words := by
    rw [words_symbol_left ho, words_inParens, tokens, List.map_cons, map_anywhere_tokens_wrapped,
      h.words]
  height := Nat.succ_le_succ (Nat.le_succ_of_le h.height)
  nesting := by
    have hn := h.nesting
    rw [nesting_sign, nesting_wrapped]
    omega

theorem bars (h : p.Whole d s) :
    (Phrase.bars (.word .bar "|") p.wrapped (some (.word .bar "|"))).Whole (d + 2)
      ("|" ++ inParens s ++ "|") where
  fits := by
    have hi : Fits none .bars .term p.wrapped .bar := (h.fits.wrapped _ _).factor_term rfl
    have hs : Fits none .plain .factor
        (.bars (.word .bar "|") p.wrapped (some (.word .bar "|"))) .endOfInput :=
      .bars rfl (.term hi) (.written rfl)
    exact .term (hs.factor_term rfl)
  words := by
    have hr := words_symbol Token.isSymbol_bar ("|" ++ inParens s) ""
    have hl := words_symbol_left Token.isSymbol_bar (inParens s)
    rw [String.append_empty] at hr
    rw [tokens, List.map_cons, List.map_append, map_anywhere_tokens_wrapped, ← h.words,
      ← words_inParens]
    exact hr.trans (congrArg (· ++ _) hl)
  height := Nat.succ_le_succ (Nat.le_succ_of_le h.height)
  nesting := by
    have hn := h.nesting
    rw [nesting_bars, nesting_wrapped]
    omega

theorem operation (h : p.Whole d s) (h' : q.Whole d t) (ho : op.IsSymbol)
    (hk : op.kind.isOperator = true) :
    (p.wrapped.operation op q.wrapped).Whole (d + 2) (inParens s ++ op.lexeme ++ inParens t) where
  fits := Fits.operation (h.fits.wrapped _ _) (h'.fits.wrapped _ _) hk rfl
  words := by
    rw [words_symbol ho, words_inParens, words_inParens, tokens_operation, List.map_append,
      List.map_cons, map_anywhere_tokens_wrapped, map_anywhere_tokens_wrapped, h.words, h'.words]
  height := by
    have ha := h.height
    have hb := h'.height
    simp only [tree_operation, tree_wrapped, Tree.height]
    omega
  nesting := by
    have ha := h.nesting
    have hb := h'.nesting
    have hn := p.wrapped.nesting_operation_le op q.wrapped
    rw [nesting_wrapped, nesting_wrapped] at hn
    omega

theorem next {m : String} (hm : ∀ k, Fits none .plain .factor p k)
    (hw : Reckon.words m = p.tokens.map Token.anywhere) (hh : p.tree.height ≤ d + 1)
    (hn : p.nesting ≤ d + 2) (h : q.Whole d t) :
    (p.next q.wrapped).Whole (d + 2) (m ++ inParens t) where
  fits := .term (Fits.next hm (h.fits.wrapped _ _) rfl rfl)
  words := by
    rw [words_append_inParens, words_inParens, tokens_next, List.map_append,
      map_anywhere_tokens_wrapped, hw, h.words]
  height := by
    have hb := h.height
    rw [← Tree.height_anywhere, anywhere_tree_next_wrapped]
    simp only [Tree.height, Tree.height_anywhere]
    omega
  nesting := by
    have hb := h.nesting
    have hn' := p.nesting_next_le q.wrapped
    rw [nesting_wrapped] at hn'
    omega

end Parser.Phrase.Whole

theorem parsesAs_of_words (hp : Fits none .plain .expression p .endOfInput)
    (hw : words text = p.tokens.map Token.anywhere)
    (hd : ¬IsTooDeep (parse ⟨.strict, d⟩ (.ofString text))) : ParsesAs d text p.tree :=
  (Phrase.Whole.of_words hp hw hd).parsesAs

def signs : List Token := [.word .plus "+", .word .minus "-"]

def operators : List Token :=
  [.word .plus "+", .word .minus "-", .word .times "*", .word .divide "/", .word .power "^"]

theorem isSymbol_of_mem_operators (h : op ∈ operators) : op.IsSymbol := by
  simp only [operators, List.mem_cons, List.not_mem_nil, or_false] at h
  rcases h with rfl | rfl | rfl | rfl | rfl
  · exact ⟨'+', by decide, rfl⟩
  · exact ⟨'-', by decide, rfl⟩
  · exact ⟨'*', by decide, rfl⟩
  · exact ⟨'/', by decide, rfl⟩
  · exact ⟨'^', by decide, rfl⟩

theorem isOperator_of_mem_operators : ∀ op ∈ operators, op.kind.isOperator = true := by decide

theorem kind_of_mem_signs : ∀ op ∈ signs, op.kind = .plus ∨ op.kind = .minus := by decide

theorem mem_operators_of_mem_signs : ∀ op ∈ signs, op ∈ operators := by decide

/-- The trees of expressions in parentheses, with something in front of them or between them. -/
structure EnclosedTrees (d : Nat) (s t : String) (a b : Tree) : Prop where
  parens : ParsesAs d (inParens s) a
  sign (op : Token) (ho : op ∈ signs) : ParsesAs d (op.lexeme ++ inParens s) (.unary op a)
  bars : ParsesAs d ("|" ++ inParens s ++ "|") (.unary (.word .bar "|") a)
  operation (op : Token) (ho : op ∈ operators) :
    ParsesAs d (inParens s ++ op.lexeme ++ inParens t) (.binary op a b)
  call (f : String) (hf : IsName f) :
    ParsesAs d (f ++ inParens s)
      (.binary (.word .juxtaposition "") (.leaf (.word .identifier f)) a)
  next : ParsesAs d (inParens s ++ inParens t)
    (.binary (.word (if a.isBareName then .juxtaposition else .times) "") a b)

/-- The values of expressions in parentheses, `x` and `y` being those of what the parentheses hold.
A fault of the first comes before one of the second. -/
structure EnclosedValues (σ : Symbols) (d : Nat) (s t : String) (x y : Except Error Value) :
    Prop where
  parens : outcome σ ⟨.strict, d⟩ (inParens s) = x
  plus : outcome σ ⟨.strict, d⟩ ("+" ++ inParens s) = x.map fun v => .computed v.number
  minus : outcome σ ⟨.strict, d⟩ ("-" ++ inParens s) = x.map fun v => .computed (-v.number)
  bars : outcome σ ⟨.strict, d⟩ ("|" ++ inParens s ++ "|") = x.map fun v => .computed v.number.abs
  operation (op : Token) (ho : op ∈ operators) :
    ∃ g : Value → Value → Value, (∀ v w, op.kind.binary? v w = some (g v w)) ∧
      outcome σ ⟨.strict, d⟩ (inParens s ++ op.lexeme ++ inParens t) = do return g (← x) (← y)
  call (f : String) (hf : IsName f) (g : Float → Float) (hg : σ.get? f = some (.function g)) :
    outcome σ ⟨.strict, d⟩ (f ++ inParens s) = x.map fun v => .float (g v.number)

section Values

variable (σ : Symbols)

theorem outcome_of_parsesAs (h : ParsesAs d text a) :
    outcome σ ⟨.strict, d⟩ text = (σ.eval a.anywhere).mapError .runtime := by
  obtain ⟨u, hu, ha⟩ := h
  rw [outcome_of_parse σ hu, ha]

theorem eval_plus (h : op.kind = .plus) (a : Tree) :
    σ.eval (.unary op a) = (σ.eval a).map fun v => .computed v.number := by
  rw [Symbols.eval, h]
  cases σ.eval a <;> rfl

theorem eval_minus (h : op.kind = .minus) (a : Tree) :
    σ.eval (.unary op a) = (σ.eval a).map fun v => .computed (-v.number) := by
  rw [Symbols.eval, h]
  cases σ.eval a <;> rfl

theorem eval_bars (h : op.kind = .bar) (a : Tree) :
    σ.eval (.unary op a) = (σ.eval a).map fun v => .computed v.number.abs := by
  rw [Symbols.eval, h]
  cases σ.eval a <;> rfl

theorem eval_call {callee : Token} {g : Float → Float} (h : op.kind = .juxtaposition)
    (hc : callee.kind = .identifier) (hg : σ.get? callee.lexeme = some (.function g)) (a : Tree) :
    σ.eval (.binary op (.leaf callee) a) = (σ.eval a).map fun v => .float (g v.number) := by
  have hf : σ.function? (.leaf callee) = some g := by
    simp [Symbols.function?, Tree.isBareName, Tree.token, hc, hg]
  rw [Symbols.eval, h, hf]
  cases σ.eval a <;> rfl

theorem eval_operation (op : Token) (hk : op.kind.isOperator = true) (a b : Tree) :
    ∃ g : Value → Value → Value, (∀ v w, op.kind.binary? v w = some (g v w)) ∧
      σ.eval (.binary op a b) = do return g (← σ.eval a) (← σ.eval b) := by
  rw [Symbols.eval]
  rcases Kind.isOperator_iff.1 hk with (h | h) | (h | h) | h <;>
    exact ⟨_, fun _ _ => by rw [h]; rfl, by rw [h]; rfl⟩

end Values

theorem enclosedTrees_of_parse (hs : (Scan.ofString s).tokens ≠ [])
    (ht : (Scan.ofString t).tokens ≠ []) (ha : parse ⟨.strict, d⟩ (.ofString s) = .ok a)
    (hb : parse ⟨.strict, d⟩ (.ofString t) = .ok b) : EnclosedTrees (d + 2) s t a b := by
  obtain ⟨p, hp, rfl⟩ := exists_whole_of_parse hs ha
  obtain ⟨q, hq, rfl⟩ := exists_whole_of_parse ht hb
  constructor
  case parens => exact hp.wrapped.parsesAs
  case sign =>
    intro op ho
    have hs := isSymbol_of_mem_operators (mem_operators_of_mem_signs op ho)
    exact (hp.sign hs (kind_of_mem_signs op ho)).parsesAs
  case bars => exact hp.bars.parsesAs
  case operation =>
    intro op ho
    have hk := isOperator_of_mem_operators op ho
    have h := (hp.operation hq (isSymbol_of_mem_operators ho) hk).parsesAs
    rwa [Phrase.tree_operation] at h
  case call =>
    intro f hf
    have hc : ∀ k, Fits none .plain .factor (.operand (.word .identifier f)) k :=
      fun _ => .operand (.inl rfl)
    have hn : (Phrase.operand (.word .identifier f)).nesting ≤ d + 2 := by
      rw [Phrase.nesting_operand]
      omega
    have h := Phrase.Whole.next hc hf.isLexical.words_lexeme (Nat.le_add_left 1 d) hn hp
    exact h.parsesAs.congr (Phrase.anywhere_tree_next_wrapped _ p)
  case next =>
    have hw := hp.wrapped
    have h := Phrase.Whole.next (hp.fits.wrapped _) hw.words (Nat.le_succ_of_le hp.height)
      hw.nesting hq
    exact h.parsesAs.congr (Phrase.anywhere_tree_next_wrapped _ q)

theorem enclosedValues_of_trees (σ : Symbols) (h : EnclosedTrees d s t a b) :
    EnclosedValues σ d s t ((σ.eval a.anywhere).mapError .runtime)
      ((σ.eval b.anywhere).mapError .runtime) := by
  have hx (f : Value → Value) : ((σ.eval a.anywhere).map f).mapError Error.runtime =
      ((σ.eval a.anywhere).mapError Error.runtime).map f := by
    cases σ.eval a.anywhere <;> rfl
  constructor
  case parens => exact outcome_of_parsesAs σ h.parens
  case plus =>
    refine (outcome_of_parsesAs σ (h.sign (.word .plus "+") (by decide))).trans ?_
    rw [Tree.anywhere, eval_plus σ rfl, hx]
  case minus =>
    refine (outcome_of_parsesAs σ (h.sign (.word .minus "-") (by decide))).trans ?_
    rw [Tree.anywhere, eval_minus σ rfl, hx]
  case bars =>
    rw [outcome_of_parsesAs σ h.bars, Tree.anywhere, eval_bars σ rfl, hx]
  case operation =>
    intro op ho
    have hk := isOperator_of_mem_operators op ho
    obtain ⟨g, hg, he⟩ := eval_operation σ op.anywhere hk a.anywhere b.anywhere
    refine ⟨g, hg, ?_⟩
    rw [outcome_of_parsesAs σ (h.operation op ho), Tree.anywhere, he]
    cases σ.eval a.anywhere <;> cases σ.eval b.anywhere <;> rfl
  case call =>
    intro f hf g hg
    rw [outcome_of_parsesAs σ (h.call f hf), Tree.anywhere, Tree.anywhere,
      eval_call σ rfl rfl hg, hx]

/-- In parentheses an expression is an operand with the tree and the value it has by itself,
whatever stands around it. -/
theorem parenthesized_texts_compose (d : Nat) (s t : String) (a b : Tree)
    (hs : (Scan.ofString s).tokens ≠ []) (ht : (Scan.ofString t).tokens ≠ [])
    (ha : parse ⟨.strict, d⟩ (.ofString s) = .ok a)
    (hb : parse ⟨.strict, d⟩ (.ofString t) = .ok b) :
    EnclosedTrees (d + 2) s t a b ∧ ∀ σ : Symbols,
      EnclosedValues σ (d + 2) s t (outcome σ ⟨.strict, d⟩ s) (outcome σ ⟨.strict, d⟩ t) := by
  have h := enclosedTrees_of_parse hs ht ha hb
  refine ⟨h, fun σ => ?_⟩
  rw [outcome_of_parse σ ha, outcome_of_parse σ hb]
  exact enclosedValues_of_trees σ h

theorem encloses_bars_in_bars :
    ParsesAs 5 "|(1|2|)|"
      (.unary (.word .bar "|") (.binary (.word .times "") (.leaf (.word .integer "1"))
        (.unary (.word .bar "|") (.leaf (.word .integer "2"))))) := by
  have hs : (Scan.ofString "1|2|").tokens ≠ [] := by decide
  have ha : parse ⟨.strict, 3⟩ (.ofString "1|2|") =
      .ok (.binary ⟨.times, "", 0, ⟨1, 1, 2⟩⟩ (.leaf ⟨.integer, "1", 1, ⟨0, 1, 1⟩⟩)
        (.unary ⟨.bar, "|", 1, ⟨1, 1, 2⟩⟩ (.leaf ⟨.integer, "2", 1, ⟨2, 1, 3⟩⟩))) := by
    decide +kernel
  obtain ⟨u, hu, he⟩ := (parenthesized_texts_compose 3 _ _ _ _ hs hs ha ha).1.bars
  exact ⟨u, hu, he⟩

end Reckon
