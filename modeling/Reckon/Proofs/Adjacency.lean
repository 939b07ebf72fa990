import Reckon.Proofs.Enclosure

namespace Reckon

def Token.star : Token := .word .times "*"

theorem Token.isSymbol_star : star.IsSymbol := ⟨'*', by decide, rfl⟩

namespace Tree

def explicit : Tree → Tree
  | leaf t => leaf t
  | unary op a => unary op a.explicit
  | binary op a b => binary (if op.lexeme = "" then .star else op) a.explicit b.explicit
  | rightOnly op b => rightOnly op b.explicit

theorem anywhere_explicit (t : Tree) : t.explicit.anywhere = t.anywhere.explicit := by
  induction t with
  | leaf => rfl
  | unary _ _ ih | rightOnly _ _ ih => rw [explicit, anywhere, anywhere, explicit, ih]
  | binary op _ _ ih ih' =>
      have hl : op.anywhere.lexeme = op.lexeme := rfl
      rw [explicit, anywhere, anywhere, explicit, ih, ih', hl]
      split <;> rfl

end Tree

namespace Parser

namespace Phrase

def isApplied : Phrase → Bool
  | applied _ _ => true
  | _ => false

def together (p q : Phrase) : Phrase := if p.isApplied then q.wrapped else q

/-- The phrase with a `*` between operands next to each other. A name and its operand are put in
parentheses where a product would not stay together. -/
def explicit : Phrase → Phrase
  | operand t => operand t
  | parens t a k => parens t a.explicit k
  | bars t a k => bars t a.explicit k
  | sign op a => sign op (a.together a.explicit)
  | applied a b => product a.explicit (some .star) (b.together b.explicit)
  | power a op b => power (a.together a.explicit) op (b.together b.explicit)
  | product a op b => product a.explicit (some (op.getD .star)) (b.together b.explicit)
  | sum a op b => sum a.explicit op b.explicit

@[simp] theorem tree_together (p q : Phrase) : (p.together q).tree = q.tree := by
  unfold together
  split <;> rfl

@[simp] theorem isBareName_explicit (p : Phrase) :
    p.explicit.tree.isBareName = p.tree.isBareName := by
  induction p with
  | parens _ _ _ ih => exact ih
  | operand | bars | sign | applied | power | product | sum => rfl

theorem tree_explicit {p : Phrase} (h : ∀ t ∈ p.tokens, t.lexeme ≠ "") :
    p.explicit.tree = p.tree.explicit := by
  induction p with
  | operand => rfl
  | parens t a k ih =>
      rw [tokens, List.forall_mem_cons, List.forall_mem_append] at h
      exact ih h.2.1
  | bars t a k ih =>
      rw [tokens, List.forall_mem_cons, List.forall_mem_append] at h
      rw [explicit, tree, tree, Tree.explicit, ih h.2.1]
  | sign op a ih =>
      rw [tokens, List.forall_mem_cons] at h
      rw [explicit, tree, tree, Tree.explicit, tree_together, ih h.2]
  | applied a b ih ih' =>
      rw [tokens, List.forall_mem_append] at h
      rw [explicit, tree, tree, Tree.explicit, tree_together, ih h.1, ih' h.2]
      rfl
  | power a op b ih ih' =>
      rw [tokens, List.forall_mem_append, List.forall_mem_cons] at h
      rw [explicit, tree, tree, Tree.explicit, tree_together, tree_together, ih h.1, ih' h.2.2,
        if_neg h.2.1]
  | sum a op b ih ih' =>
      rw [tokens, List.forall_mem_append, List.forall_mem_cons] at h
      rw [explicit, tree, tree, Tree.explicit, ih h.1, ih' h.2.2, if_neg h.2.1]
  | product a op b ih ih' =>
      rw [tokens, List.forall_mem_append, List.forall_mem_append] at h
      rw [explicit, tree, tree, Tree.explicit, tree_together, ih h.1, ih' h.2.2]
      cases op with
      | none => rfl
      | some op => rw [Option.getD_some, Option.getD_some, Option.getD_some,
          if_neg (h.2.1 op (List.mem_singleton_self op))]

end Phrase

variable {c : Context} {lvl : Level} {p q : Phrase} {k : Kind}

theorem Fits.together {k' : Kind} (h : Fits none c .expression q k') (hp : p.isApplied = true)
    (hn : q.tree.isBareName = false) : Fits none c .application (p.together q) k := by
  rw [Phrase.together, if_pos hp]
  exact .factor (h.wrapped c k) (by rw [Phrase.tree_wrapped, hn, Bool.false_and])

theorem Fits.star {k' : Kind} (h : Fits none c .term p k') (h' : Fits none c .power q k) :
    Fits none c .term (.product p (some .star) q) k := by
  have ht : Token.star.kind = .times ∨ Token.star.kind = .divide := .inl rfl
  exact .product (h.before_stop (Context.joins_operator rfl)) ht h'

def Phrase.explicitAt (lvl : Level) (p : Phrase) : Phrase :=
  match lvl with
  | .expression | .term => p.explicit
  | .power | .application | .factor => p.together p.explicit

theorem Phrase.explicitAt_of_not_isApplied (h : p.isApplied = false) :
    p.explicitAt lvl = p.explicit := by
  cases lvl <;> simp [explicitAt, together, h]

theorem Fits.explicit (h : Fits none c lvl p k) : Fits none c lvl (p.explicitAt lvl) k ∧
    (p.isApplied = true → Fits none c .term p.explicit k) := by
  induction h with
  | term _ ih => exact ⟨.term ih.1, ih.2⟩
  | sum _ hop _ ih ih' => exact ⟨.sum ih.1 hop ih'.1, nofun⟩
  | @power c p k _ ih =>
      refine ⟨?_, ih.2⟩
      cases hp : p.isApplied with
      | true => exact ih.2 hp
      | false =>
          have h := ih.1
          rw [Phrase.explicitAt_of_not_isApplied hp] at h
          exact .power h
  | product _ hop _ ih ih' => exact ⟨.product ih.1 hop ih'.1, nofun⟩
  | adjacent _ _ _ ih ih' => exact ⟨ih.1.star ih'.1, nofun⟩
  | application _ ih => exact ⟨.application ih.1, ih.2⟩
  | raised _ hop _ ih ih' => exact ⟨.raised ih.1 hop ih'.1, nofun⟩
  | @factor c p k _ hn ih =>
      have hb : ((p.explicitAt .factor).tree.isBareName && c.joins k) = false := by
        rw [Phrase.explicitAt, Phrase.tree_together, Phrase.isBareName_explicit, hn]
      exact ⟨.factor ih.1 hb, ih.2⟩
  | @applied c p q k _ hp _ _ ih ih' =>
      have ha : p.isApplied = false := by
        cases p with
        | applied => cases hp
        | _ => rfl
      have hl := ih.1
      rw [Phrase.explicitAt_of_not_isApplied ha] at hl
      have hs : c.joins .times = false := Context.joins_operator rfl
      have ht : Fits none c .term (Phrase.applied p q).explicit k :=
        Fits.star ((hl.before_stop hs).factor_term hs) (.application ih'.1)
      exact ⟨Fits.together (.term ht) rfl rfl, fun _ => ht⟩
  | parens ht _ closed ih => exact ⟨.parens ht ih.1 closed, nofun⟩
  | bars ht _ closed ih => exact ⟨.bars ht ih.1 closed, nofun⟩
  | sign ht _ ih => exact ⟨.sign ht ih.1, nofun⟩
  | operand ht => exact ⟨.operand ht, nofun⟩
  | missing h => cases h

end Parser

open Reckon.Parser

/-- Where every name is one of a constant, no operand is an argument. -/
def Symbols.OnlyConstants (σ : Symbols) (ts : List Token) : Prop :=
  ∀ t ∈ ts, t.kind = .identifier → ∃ v, σ.get? t.lexeme = some (.constant v)

section Value

variable {σ : Symbols} {p : Phrase}

theorem function?_tree (h : σ.OnlyConstants p.tokens) : σ.function? p.tree = none := by
  induction p with
  | operand t =>
      by_cases hk : t.kind = .identifier
      · obtain ⟨v, hv⟩ := h t (by simp [Phrase.tokens, hk]) hk
        simp [Phrase.tree, Symbols.function?, Tree.token, hv]
      · simp [Phrase.tree, Symbols.function?, Tree.isBareName, hk]
  | parens t a k ih =>
      rw [Symbols.OnlyConstants, Phrase.tokens, List.forall_mem_cons, List.forall_mem_append] at h
      exact ih h.2.1
  | bars | sign | applied | power | product | sum => rfl

theorem function?_explicit (p : Phrase) : σ.function? p.explicit.tree = σ.function? p.tree := by
  induction p with
  | parens _ _ _ ih => exact ih
  | operand | bars | sign | applied | power | product | sum => rfl

theorem eval_star {op : Token} {a b : Tree} (hk : op.kind = .juxtaposition ∨ op.kind = .times)
    (hf : σ.function? a = none) : σ.eval (.binary .star a b) = σ.eval (.binary op a b) := by
  have hs : Token.star.kind = .times := rfl
  rw [Symbols.eval, Symbols.eval, hs, hf]
  rcases hk with hk | hk <;> rw [hk] <;> rfl

theorem kind_between (next : Token) :
    (between next).kind = .juxtaposition ∨ (between next).kind = .times := by
  rw [between]
  split
  · exact .inl rfl
  · exact .inr rfl

theorem eval_binary_congr {a a' b b' : Tree} (op : Token) (ha : σ.eval a' = σ.eval a)
    (hb : σ.eval b' = σ.eval b) (hf : σ.function? a' = σ.function? a) :
    σ.eval (.binary op a' b') = σ.eval (.binary op a b) := by
  rw [Symbols.eval, Symbols.eval, ha, hb, hf]

theorem eval_explicit (h : σ.OnlyConstants p.tokens) : σ.eval p.explicit.tree = σ.eval p.tree := by
  induction p with
  | operand => rfl
  | parens t a k ih =>
      rw [Symbols.OnlyConstants, Phrase.tokens, List.forall_mem_cons, List.forall_mem_append] at h
      exact ih h.2.1
  | bars t a k ih =>
      rw [Symbols.OnlyConstants, Phrase.tokens, List.forall_mem_cons, List.forall_mem_append] at h
      rw [Phrase.explicit, Phrase.tree, Phrase.tree, Symbols.eval, Symbols.eval, ih h.2.1]
  | sign op a ih =>
      rw [Symbols.OnlyConstants, Phrase.tokens, List.forall_mem_cons] at h
      rw [Phrase.explicit, Phrase.tree, Phrase.tree, Symbols.eval, Symbols.eval,
        Phrase.tree_together, ih h.2]
  | applied a b ih ih' =>
      rw [Symbols.OnlyConstants, Phrase.tokens, List.forall_mem_append] at h
      obtain ⟨ha, hb⟩ := h
      rw [Phrase.explicit, Phrase.tree, Phrase.tree, Phrase.tree_together, Option.getD_some,
        eval_binary_congr .star (ih ha) (ih' hb) (function?_explicit a)]
      exact eval_star (.inl rfl) (function?_tree ha)
  | power a op b ih ih' =>
      rw [Symbols.OnlyConstants, Phrase.tokens, List.forall_mem_append, List.forall_mem_cons] at h
      obtain ⟨ha, _, hb⟩ := h
      rw [Phrase.explicit, Phrase.tree, Phrase.tree, Phrase.tree_together, Phrase.tree_together]
      exact eval_binary_congr op (ih ha) (ih' hb) (function?_explicit a)
  | sum a op b ih ih' =>
      rw [Symbols.OnlyConstants, Phrase.tokens, List.forall_mem_append, List.forall_mem_cons] at h
      obtain ⟨ha, _, hb⟩ := h
      exact eval_binary_congr op (ih ha) (ih' hb) (function?_explicit a)
  | product a op b ih ih' =>
      rw [Symbols.OnlyConstants, Phrase.tokens, List.forall_mem_append, List.forall_mem_append] at h
      obtain ⟨ha, _, hb⟩ := h
      rw [Phrase.explicit, Phrase.tree, Phrase.tree, Phrase.tree_together, Option.getD_some,
        eval_binary_congr _ (ih ha) (ih' hb) (function?_explicit a)]
      cases op with
      | some op => rfl
      | none => exact eval_star (kind_between b.first) (function?_tree ha)

end Value

section Insertion

open Relation

def punctuation : List Token := [.star, .word .leftParen "(", .word .rightParen ")"]

theorem isSymbol_of_mem_punctuation {t : Token} (h : t ∈ punctuation) : t.IsSymbol := by
  simp only [punctuation, List.mem_cons, List.not_mem_nil, or_false] at h
  rcases h with rfl | rfl | rfl
  · exact Token.isSymbol_star
  · exact Token.isSymbol_leftParen
  · exact Token.isSymbol_rightParen

theorem anywhere_of_mem_punctuation {t : Token} (h : t ∈ punctuation) : t.anywhere = t := by
  simp only [punctuation, List.mem_cons, List.not_mem_nil, or_false] at h
  rcases h with rfl | rfl | rfl <;> rfl

def InsertsWord (ts us : List Token) : Prop :=
  ∃ a b, ∃ t ∈ punctuation, ts = a ++ b ∧ us = a ++ t :: b

def InsertsSymbol (s s' : String) : Prop :=
  ∃ a b, ∃ t ∈ punctuation, s = a ++ b ∧ s' = a ++ t.lexeme ++ b

variable {ts us vs ws : List Token}

theorem InsertsWord.append_left (l : List Token) (h : InsertsWord ts us) :
    InsertsWord (l ++ ts) (l ++ us) := by
  obtain ⟨a, b, t, ht, rfl, rfl⟩ := h
  exact ⟨l ++ a, b, t, ht, by rw [List.append_assoc], by rw [List.append_assoc]⟩

theorem InsertsWord.append_right (l : List Token) (h : InsertsWord ts us) :
    InsertsWord (ts ++ l) (us ++ l) := by
  obtain ⟨a, b, t, ht, rfl, rfl⟩ := h
  exact ⟨a, b ++ l, t, ht, by rw [List.append_assoc], by rw [List.append_assoc, List.cons_append]⟩

theorem InsertsWord.map_anywhere (h : InsertsWord ts us) :
    InsertsWord (ts.map Token.anywhere) (us.map Token.anywhere) := by
  obtain ⟨a, b, t, ht, rfl, rfl⟩ := h
  refine ⟨a.map Token.anywhere, b.map Token.anywhere, t, ht, List.map_append, ?_⟩
  rw [List.map_append, List.map_cons, anywhere_of_mem_punctuation ht]

theorem inserts_append (h : ReflTransGen InsertsWord ts us) (h' : ReflTransGen InsertsWord vs ws) :
    ReflTransGen InsertsWord (ts ++ vs) (us ++ ws) :=
  (ReflTransGen.lift (· ++ vs) (fun _ _ => InsertsWord.append_right vs) _ _ h).trans
    (ReflTransGen.lift (us ++ ·) (fun _ _ => InsertsWord.append_left us) _ _ h')

theorem inserts_cons (t : Token) (h : ReflTransGen InsertsWord ts us) :
    ReflTransGen InsertsWord (t :: ts) (t :: us) :=
  inserts_append (.refl (a := [t])) h

theorem inserts_wrapped (p : Phrase) : ReflTransGen InsertsWord p.tokens p.wrapped.tokens := by
  refine .head (b := .word .leftParen "(" :: p.tokens) ?_ (.single ?_)
  · exact ⟨[], p.tokens, _, by simp [punctuation], rfl, rfl⟩
  · exact ⟨.word .leftParen "(" :: p.tokens, [], _, by simp [punctuation], by simp, rfl⟩

theorem inserts_together {p q : Phrase} (h : ReflTransGen InsertsWord p.tokens q.tokens) :
    ReflTransGen InsertsWord p.tokens (p.together q).tokens := by
  unfold Phrase.together
  split
  · exact h.trans (inserts_wrapped q)
  · exact h

theorem inserts_explicit (p : Phrase) :
    ReflTransGen InsertsWord p.tokens p.explicit.tokens := by
  have hs (ts : List Token) : ReflTransGen InsertsWord ts (.star :: ts) :=
    .single ⟨[], ts, _, by simp [punctuation], rfl, rfl⟩
  induction p with
  | operand => exact .refl
  | parens t a k ih | bars t a k ih => exact inserts_cons t (inserts_append ih .refl)
  | sign op a ih => exact inserts_cons op (inserts_together ih)
  | applied a b ih ih' => exact inserts_append ih ((inserts_together ih').trans (hs _))
  | power a op b ih ih' =>
      exact inserts_append (inserts_together ih) (inserts_cons op (inserts_together ih'))
  | sum a op b ih ih' => exact inserts_append ih (inserts_cons op ih')
  | product a op b ih ih' =>
      cases op with
      | none => exact inserts_append ih ((inserts_together ih').trans (hs _))
      | some op => exact inserts_append ih (inserts_cons op (inserts_together ih'))

theorem inserts_anywhere (p : Phrase) : ReflTransGen InsertsWord (p.tokens.map Token.anywhere)
    (p.explicit.tokens.map Token.anywhere) :=
  ReflTransGen.lift (List.map Token.anywhere) (fun _ _ => InsertsWord.map_anywhere) _ _
    (inserts_explicit p)

theorem exists_text_of_inserts {text : String} (h : ReflTransGen InsertsWord (words text) ws) :
    ∃ text', ReflTransGen InsertsSymbol text text' ∧ words text' = ws := by
  induction h with
  | refl => exact ⟨text, .refl, rfl⟩
  | tail _ h ih =>
      obtain ⟨text', ht, hw⟩ := ih
      obtain ⟨ts, us, t, hm, rfl, rfl⟩ := h
      obtain ⟨a, b, rfl, rfl, rfl⟩ := exists_split hw
      refine ⟨a ++ t.lexeme ++ b, ht.tail ⟨a, b, t, hm, rfl, rfl⟩, ?_⟩
      rw [words_symbol (isSymbol_of_mem_punctuation hm), anywhere_of_mem_punctuation hm]

end Insertion

/-- The second text is the first one with its operators written out, of which no text without words
has any. -/
def SpellsOut (text text' : String) : Prop :=
  (words text = [] ∧ words text' = []) ∨
    ∃ p : Phrase, Fits none .plain .expression p .endOfInput ∧
      words text = p.tokens.map Token.anywhere ∧ words text' = p.explicit.tokens.map Token.anywhere

theorem exists_spellsOut {d : Nat} {text : String} {t : Tree}
    (h : parse ⟨.strict, d⟩ (.ofString text) = .ok t) :
    ∃ text', Relation.ReflTransGen InsertsSymbol text text' ∧ SpellsOut text text' := by
  by_cases hne : (Scan.ofString text).tokens = []
  · have hw : words text = [] := by rw [words, hne, List.map_nil]
    exact ⟨text, .refl, .inl ⟨hw, hw⟩⟩
  · obtain ⟨p, hp, ht, _⟩ := exists_phrase_of_parse hne h
    have hw : words text = p.tokens.map Token.anywhere := by rw [words, ht]
    obtain ⟨text', ht', hw'⟩ := exists_text_of_inserts (hw ▸ inserts_anywhere p)
    exact ⟨text', ht', .inr ⟨p, hp, hw, hw'⟩⟩

theorem forall_mem_of_words {text : String} {p : Phrase} {P : Token → Prop}
    (hw : words text = p.tokens.map Token.anywhere) (hP : ∀ t, P t.anywhere → P t)
    (h : ∀ t ∈ words text, P t) : ∀ t ∈ p.tokens, P t := by
  intro t ht
  exact hP t (h _ (hw ▸ List.mem_map_of_mem ht))

theorem parse_of_words_eq_nil {o : Options} {text : String} (h : words text = []) :
    parse o (.ofString text) = .ok (.leaf (Scan.ofString text).finish) :=
  parse_nil (List.map_eq_nil_iff.1 h)

/-- Where no name is a function, a text can be spelled out with a `*` between operands next to each
other, and a name and what is attached to it in parentheses: the tree is the same but for the `*`,
and so is the value. -/
theorem spelled_out_keeps_value (d : Nat) (text : String) (t : Tree) (σ : Symbols)
    (h : parse ⟨.strict, d⟩ (.ofString text) = .ok t) (hc : σ.OnlyConstants (words text)) :
    (∃ text', Relation.ReflTransGen InsertsSymbol text text' ∧ SpellsOut text text') ∧
      ∀ text', SpellsOut text text' →
        ∀ d', ¬IsTooDeep (parse ⟨.strict, d'⟩ (.ofString text')) →
          ParsesAs d' text' t.explicit ∧
            outcome σ ⟨.strict, d'⟩ text' = outcome σ ⟨.strict, d⟩ text := by
  refine ⟨exists_spellsOut h, ?_⟩
  intro text' hs d' hd
  suffices hp : ParsesAs d' text' t.explicit ∧ σ.eval t.anywhere.explicit = σ.eval t.anywhere by
    refine ⟨hp.1, ?_⟩
    rw [outcome_of_parsesAs σ hp.1, outcome_of_parse σ h, Tree.anywhere_explicit, hp.2]
  rcases hs with ⟨hw, hw'⟩ | ⟨p, hp, hw, hw'⟩
  · rw [parse_of_words_eq_nil hw, Except.ok.injEq] at h
    subst h
    exact ⟨⟨_, parse_of_words_eq_nil hw', rfl⟩, rfl⟩
  · have hne : (Scan.ofString text).tokens ≠ [] := by
      intro hn
      rw [words, hn, List.map_nil, eq_comm, List.map_eq_nil_iff] at hw
      exact hp.tokens_ne_nil hw
    have ht := tree_of_words hne h hp hw
    have hl : ∀ u ∈ p.tokens, u.lexeme ≠ "" := by
      refine forall_mem_of_words hw (fun _ => id) ?_
      intro u hu
      obtain ⟨v, hv, rfl⟩ := List.mem_map.1 hu
      exact (Scan.isLexical_of_mem hv).lexeme_ne_empty
    have hcp : σ.OnlyConstants p.tokens := forall_mem_of_words hw (fun _ => id) hc
    have he : p.explicit.tree.anywhere = t.anywhere.explicit := by
      rw [Phrase.tree_explicit hl, Tree.anywhere_explicit, ht]
    constructor
    · exact (parsesAs_of_words hp.explicit.1 hw' hd).congr (he.trans t.anywhere_explicit.symm)
    · rw [← he, ← ht, eval_anywhere, eval_anywhere, eval_explicit hcp]

def Symbols.twoAndFour : Symbols :=
  Symbols.empty.defineAll [("x", .constant (.integer 2)), ("y", .constant (.integer 4))]

theorem words_eight_over_x_y : words "8/x y" =
    [.word .integer "8", .word .divide "/", .word .identifier "x", .word .identifier "y"] := by
  decide +kernel

theorem Symbols.onlyConstants_twoAndFour : Symbols.twoAndFour.OnlyConstants (words "8/x y") := by
  rw [words_eight_over_x_y]
  intro t ht hk
  simp only [List.mem_cons, List.not_mem_nil, or_false] at ht
  rcases ht with rfl | rfl | rfl | rfl
  · cases hk
  · cases hk
  · exact ⟨.integer 2, rfl⟩
  · exact ⟨.integer 4, rfl⟩

theorem parse_eight_over_x_y :
    ∃ slash x y eight : Token, parse ⟨.strict, 8⟩ (.ofString "8/x y") =
        .ok (.binary slash (.leaf eight)
          (.binary (.implied .juxtaposition y) (.leaf x) (.leaf y))) ∧
      [eight, slash, x, y].map Token.lexeme = ["8", "/", "x", "y"] :=
  ⟨⟨.divide, "/", 1, ⟨1, 1, 2⟩⟩, ⟨.identifier, "x", 1, ⟨2, 1, 3⟩⟩, ⟨.identifier, "y", 1, ⟨4, 1, 5⟩⟩,
    ⟨.integer, "8", 1, ⟨0, 1, 1⟩⟩, by decide +kernel, rfl⟩

/-- A name takes the operand after it before a division does: the one operator nobody wrote stands
between the names, but a `*` in its place divides first. -/
theorem attachment_before_division :
    (∃ slash x y eight : Token, parse ⟨.strict, 8⟩ (.ofString "8/x y") =
        .ok (.binary slash (.leaf eight)
          (.binary (.implied .juxtaposition y) (.leaf x) (.leaf y))) ∧
      [eight, slash, x, y].map Token.lexeme = ["8", "/", "x", "y"]) ∧
    Symbols.twoAndFour.OnlyConstants (words "8/x y") ∧
    (words "8/x*y").map Token.lexeme = ["8", "/", "x", "*", "y"] ∧
    (evaluate ⟨.strict, 8⟩ .twoAndFour "8/x y").toOption.map Value.number = some 1 ∧
    (evaluate ⟨.strict, 8⟩ .twoAndFour "8/x*y").toOption.map Value.number = some 16 ∧
    (1 : Float) ≠ 16 := by
  refine ⟨parse_eight_over_x_y, Symbols.onlyConstants_twoAndFour, ?_, ?_, ?_, ?_⟩
  · decide +kernel
  · decide +kernel
  · decide +kernel
  · decide +kernel

theorem spellsOut_eight_over_x_y : SpellsOut "8/x y" "8/(x*y)" := by
  refine .inr ⟨.product (.operand (.word .integer "8")) (some (.word .divide "/"))
    (.applied (.operand (.word .identifier "x")) (.operand (.word .identifier "y"))), ?_, ?_, ?_⟩
  · refine .term (.product (.power (.application (.factor (.operand (.inr (.inl rfl))) rfl)))
      (.inr rfl) (.application (.applied (.operand (.inl rfl)) rfl rfl ?_)))
    exact .factor (.operand (.inl rfl)) rfl
  · exact words_eight_over_x_y
  · decide +kernel

theorem spelled_out_eight_over_x_y :
    outcome .twoAndFour ⟨.strict, 8⟩ "8/(x*y)" = outcome .twoAndFour ⟨.strict, 8⟩ "8/x y" := by
  obtain ⟨_, _, _, _, h, _⟩ := parse_eight_over_x_y
  have hc := Symbols.onlyConstants_twoAndFour
  have hl : (Scan.ofString "8/(x*y)").tokens.length = 7 := by decide +kernel
  have hd : ¬IsTooDeep (parse ⟨.strict, 8⟩ (.ofString "8/(x*y)")) := by
    intro h
    exact absurd (hl ▸ h.maxDepth_le) (by decide)
  exact ((spelled_out_keeps_value 8 _ _ _ h hc).2 _ spellsOut_eight_over_x_y 8 hd).2

end Reckon
