import Reckon.Evaluation
import Reckon.Proofs.Derivation
import Reckon.Proofs.Words

namespace Reckon

namespace Tree

def anywhere : Tree → Tree
  | leaf t => leaf t.anywhere
  | unary t a => unary t.anywhere a.anywhere
  | binary t a b => binary t.anywhere a.anywhere b.anywhere
  | rightOnly t b => rightOnly t.anywhere b.anywhere

@[simp] theorem isBareName_anywhere (t : Tree) : t.anywhere.isBareName = t.isBareName := by
  cases t <;> rfl

@[simp] theorem height_anywhere (t : Tree) : t.anywhere.height = t.height := by
  induction t with
  | leaf | rightOnly => rfl
  | unary _ _ ih => rw [anywhere, height, height, ih]
  | binary _ _ _ ih ih' => rw [anywhere, height, height, ih, ih']

theorem isBareName_congr {t u : Tree} (h : t.anywhere = u.anywhere) :
    t.isBareName = u.isBareName := by
  rw [← t.isBareName_anywhere, h, u.isBareName_anywhere]

theorem height_congr {t u : Tree} (h : t.anywhere = u.anywhere) : t.height = u.height := by
  rw [← t.height_anywhere, h, u.height_anywhere]

end Tree

def SameWords (ts us : List Token) : Prop := ts.map Token.anywhere = us.map Token.anywhere

namespace SameWords

variable {ts us vs : List Token} {u : Token}

theorem split (h : SameWords ts (us ++ vs)) :
    ∃ ts₁ ts₂, ts = ts₁ ++ ts₂ ∧ SameWords ts₁ us ∧ SameWords ts₂ vs := by
  rw [SameWords, List.map_append] at h
  exact List.map_eq_append_iff.1 h

theorem uncons (h : SameWords ts (u :: us)) :
    ∃ t ts₁, ts = t :: ts₁ ∧ t.anywhere = u.anywhere ∧ SameWords ts₁ us :=
  List.map_eq_cons_iff.1 h

theorem splitAt (h : SameWords ts (us ++ u :: vs)) : ∃ ts₁ t ts₂, ts = ts₁ ++ t :: ts₂ ∧
    SameWords ts₁ us ∧ t.anywhere = u.anywhere ∧ SameWords ts₂ vs := by
  obtain ⟨ts₁, ts, rfl, h₁, h⟩ := h.split
  obtain ⟨t, ts₂, rfl, ht, h₂⟩ := h.uncons
  exact ⟨ts₁, t, ts₂, rfl, h₁, ht, h₂⟩

theorem eq_nil (h : SameWords ts []) : ts = [] := List.map_eq_nil_iff.1 h

end SameWords

namespace Parser

/-- Phrases that differ at most in where their tokens stand. -/
structure Phrase.Alike (p q : Phrase) : Prop where
  first : p.first.anywhere = q.first.anywhere
  tree : p.tree.anywhere = q.tree.anywhere
  nesting : p.nesting = q.nesting

namespace Phrase.Alike

variable {p q p' q' : Phrase} {t u : Token}

theorem kind (h : p.Alike q) : p.first.kind = q.first.kind := Token.kind_eq_of_anywhere h.first

theorem isBareName (h : p.Alike q) : p.tree.isBareName = q.tree.isBareName :=
  Tree.isBareName_congr h.tree

theorem operand (ht : t.anywhere = u.anywhere) : (Phrase.operand t).Alike (.operand u) :=
  ⟨ht, congrArg Tree.leaf ht, rfl⟩

theorem parens (ht : t.anywhere = u.anywhere) (h : p.Alike q) (k k' : Option Token) :
    (Phrase.parens t p k).Alike (.parens u q k') :=
  ⟨ht, h.tree, by rw [nesting_parens, nesting_parens, h.nesting]⟩

theorem bars (ht : t.anywhere = u.anywhere) (h : p.Alike q) (k k' : Option Token) :
    (Phrase.bars t p k).Alike (.bars u q k') :=
  ⟨ht, congrArg₂ Tree.unary ht h.tree, by rw [nesting_bars, nesting_bars, h.nesting]⟩

theorem sign (ht : t.anywhere = u.anywhere) (h : p.Alike q) :
    (Phrase.sign t p).Alike (.sign u q) :=
  ⟨ht, congrArg₂ Tree.unary ht h.tree, by rw [nesting_sign, nesting_sign, h.nesting]⟩

theorem sum (h : p.Alike q) (ht : t.anywhere = u.anywhere) (h' : p'.Alike q') :
    (Phrase.sum p t p').Alike (.sum q u q') where
  first := h.first
  tree := by simp only [Phrase.tree, Tree.anywhere, ht, h.tree, h'.tree]
  nesting := by rw [nesting_sum, nesting_sum, h.nesting, h'.nesting]

theorem power (h : p.Alike q) (ht : t.anywhere = u.anywhere) (h' : p'.Alike q') :
    (Phrase.power p t p').Alike (.power q u q') where
  first := h.first
  tree := by simp only [Phrase.tree, Tree.anywhere, ht, h.tree, h'.tree]
  nesting := by rw [nesting_power, nesting_power, h.nesting, h'.nesting]

theorem product (h : p.Alike q) (ht : t.anywhere = u.anywhere) (h' : p'.Alike q') :
    (Phrase.product p (some t) p').Alike (.product q (some u) q') where
  first := h.first
  tree := by simp only [Phrase.tree, Tree.anywhere, Option.getD_some, ht, h.tree, h'.tree]
  nesting := by rw [nesting_product, nesting_product, h.nesting, h'.nesting]

theorem adjacent (h : p.Alike q) (h' : p'.Alike q') :
    (Phrase.product p none p').Alike (.product q none q') where
  first := h.first
  tree := by
    have hb : (between p'.first).anywhere = (between q'.first).anywhere := by
      rw [between, h'.kind]
      rfl
    simp only [Phrase.tree, Tree.anywhere, Option.getD_none, hb, h.tree, h'.tree]
  nesting := by rw [nesting_product, nesting_product, h.nesting, h'.nesting]

theorem applied (h : p.Alike q) (h' : p'.Alike q') :
    (Phrase.applied p p').Alike (.applied q q') where
  first := h.first
  tree := by
    rw [Phrase.tree, Phrase.tree, Tree.anywhere, Tree.anywhere, h.tree, h'.tree]
    rfl
  nesting := by rw [nesting_applied, nesting_applied, h.nesting, h'.nesting]

end Phrase.Alike

variable {c : Context} {lvl : Level} {p : Phrase} {k : Kind} {ts : List Token} {d : Nat} {t : Tree}

theorem Closed.eq_written {i next : Kind} {closing : Option Token}
    (h : Closed none k closing i next) :
    ∃ t : Token, closing = some t ∧ t.kind = k ∧ i = t.kind := by
  cases h with
  | written h => exact ⟨_, rfl, h, rfl⟩
  | assumed hs => cases hs

theorem Phrase.tokens_operand {t : Token}
    (ht : t.kind = .identifier ∨ t.kind = .integer ∨ t.kind = .float) :
    (Phrase.operand t).tokens = [t] := by
  have he : t.kind ≠ .endOfInput := by rcases ht with ht | ht | ht <;> simp [ht]
  rw [tokens, if_neg he]

theorem Fits.reword (h : Fits none c lvl p k) (hw : SameWords ts p.tokens) :
    ∃ q, Fits none c lvl q k ∧ q.tokens = ts ∧ q.Alike p := by
  induction h generalizing ts with
  | term _ ih =>
      obtain ⟨q, hq, ht, ha⟩ := ih hw
      exact ⟨q, .term hq, ht, ha⟩
  | sum _ hop _ ih ih' =>
      obtain ⟨ts₁, op, ts₂, rfl, h₁, ho, h₂⟩ := SameWords.splitAt hw
      obtain ⟨q, hq, rfl, ha⟩ := ih h₁
      obtain ⟨q', hq', rfl, ha'⟩ := ih' h₂
      have hk := Token.kind_eq_of_anywhere ho
      exact ⟨.sum q op q', .sum (hk ▸ hq) (hk ▸ hop) hq', rfl, ha.sum ho ha'⟩
  | power _ ih =>
      obtain ⟨q, hq, ht, ha⟩ := ih hw
      exact ⟨q, .power hq, ht, ha⟩
  | product _ hop _ ih ih' =>
      obtain ⟨ts₁, op, ts₂, rfl, h₁, ho, h₂⟩ := SameWords.splitAt hw
      obtain ⟨q, hq, rfl, ha⟩ := ih h₁
      obtain ⟨q', hq', rfl, ha'⟩ := ih' h₂
      have hk := Token.kind_eq_of_anywhere ho
      exact ⟨.product q (some op) q', .product (hk ▸ hq) (hk ▸ hop) hq', rfl, ha.product ho ha'⟩
  | adjacent _ hj _ ih ih' =>
      obtain ⟨ts₁, ts₂, rfl, h₁, h₂⟩ := SameWords.split hw
      obtain ⟨q, hq, rfl, ha⟩ := ih h₁
      obtain ⟨q', hq', rfl, ha'⟩ := ih' h₂
      have hk := ha'.kind
      exact ⟨.product q none q', .adjacent (hk ▸ hq) (hk ▸ hj) hq', rfl, ha.adjacent ha'⟩
  | application _ ih =>
      obtain ⟨q, hq, ht, ha⟩ := ih hw
      exact ⟨q, .application hq, ht, ha⟩
  | raised _ hop _ ih ih' =>
      obtain ⟨ts₁, op, ts₂, rfl, h₁, ho, h₂⟩ := SameWords.splitAt hw
      obtain ⟨q, hq, rfl, ha⟩ := ih h₁
      obtain ⟨q', hq', rfl, ha'⟩ := ih' h₂
      have hk := Token.kind_eq_of_anywhere ho
      exact ⟨.power q op q', .raised (hk ▸ hq) (hk ▸ hop) hq', rfl, ha.power ho ha'⟩
  | factor _ hk ih =>
      obtain ⟨q, hq, ht, ha⟩ := ih hw
      exact ⟨q, .factor hq (ha.isBareName ▸ hk), ht, ha⟩
  | applied _ hp hj _ ih ih' =>
      obtain ⟨ts₁, ts₂, rfl, h₁, h₂⟩ := SameWords.split hw
      obtain ⟨q, hq, rfl, ha⟩ := ih h₁
      obtain ⟨q', hq', rfl, ha'⟩ := ih' h₂
      have hk := ha'.kind
      exact ⟨.applied q q', .applied (hk ▸ hq) (ha.isBareName ▸ hp) (hk ▸ hj) hq', rfl,
        ha.applied ha'⟩
  | parens ht _ closed ih =>
      obtain ⟨closing, rfl, hc, rfl⟩ := closed.eq_written
      obtain ⟨opening, ts, rfl, ho, hw⟩ := SameWords.uncons hw
      obtain ⟨ts₁, closing', ts₂, rfl, h₁, ho', h₂⟩ := SameWords.splitAt hw
      obtain ⟨q, hq, rfl, ha⟩ := ih h₁
      obtain rfl := h₂.eq_nil
      have hk := Token.kind_eq_of_anywhere ho
      have hk' := Token.kind_eq_of_anywhere ho'
      exact ⟨.parens opening q (some closing'),
        .parens (hk.trans ht) (hk' ▸ hq) (.written (hk'.trans hc)), rfl, ha.parens ho _ _⟩
  | bars ht _ closed ih =>
      obtain ⟨closing, rfl, hc, rfl⟩ := closed.eq_written
      obtain ⟨opening, ts, rfl, ho, hw⟩ := SameWords.uncons hw
      obtain ⟨ts₁, closing', ts₂, rfl, h₁, ho', h₂⟩ := SameWords.splitAt hw
      obtain ⟨q, hq, rfl, ha⟩ := ih h₁
      obtain rfl := h₂.eq_nil
      have hk := Token.kind_eq_of_anywhere ho
      have hk' := Token.kind_eq_of_anywhere ho'
      exact ⟨.bars opening q (some closing'),
        .bars (hk.trans ht) (hk' ▸ hq) (.written (hk'.trans hc)), rfl, ha.bars ho _ _⟩
  | sign ht _ ih =>
      obtain ⟨op, ts, rfl, ho, hw⟩ := SameWords.uncons hw
      obtain ⟨q, hq, rfl, ha⟩ := ih hw
      have hk := Token.kind_eq_of_anywhere ho
      exact ⟨.sign op q, .sign (hk ▸ ht) hq, rfl, ha.sign ho⟩
  | @operand c t k ht =>
      rw [Phrase.tokens_operand ht] at hw
      obtain ⟨t', ts, rfl, ho, h₂⟩ := hw.uncons
      obtain rfl := h₂.eq_nil
      have ht' := Token.kind_eq_of_anywhere ho ▸ ht
      exact ⟨.operand t', .operand ht', Phrase.tokens_operand ht', .operand ho⟩
  | missing h => cases h

theorem Fits.tokens_ne_nil (h : Fits none c lvl p k) : p.tokens ≠ [] := by
  induction h with
  | term _ ih | power _ ih | application _ ih | factor _ _ ih => exact ih
  | sum _ _ _ ih | product _ _ _ ih | adjacent _ _ _ ih | raised _ _ _ ih
    | applied _ _ _ _ ih => exact List.append_ne_nil_of_left_ne_nil ih _
  | parens | bars | sign => exact List.cons_ne_nil _ _
  | @operand c t k ht =>
      rw [Phrase.tokens_operand ht]
      exact List.cons_ne_nil _ _
  | missing h => cases h

end Parser

open Reckon.Parser

variable {text : String} {d : Nat} {t : Tree} {p : Phrase}

/-- What a strict parser reads is a phrase, of no more than the depth it permits. -/
theorem exists_phrase_of_parse (hne : (Scan.ofString text).tokens ≠ [])
    (h : parse ⟨.strict, d⟩ (.ofString text) = .ok t) :
    ∃ p : Phrase, Fits none .plain .expression p .endOfInput ∧
      p.tokens = (Scan.ofString text).tokens ∧ p.tree = t ∧ max p.tree.height p.nesting ≤ d := by
  obtain ⟨p, rest, hp, ha, ht⟩ := (parse_eq_ok_iff_heads (Scan.ne_end_of_mem text) hne).1 h
  cases hp.all rfl
  exact ⟨p, hp.fits, by rw [hp.tokens, List.append_nil], ht, p.admitted_zero.1 ha⟩

/-- A text with the words of a phrase has its tree. -/
theorem parse_words (hp : Fits none .plain .expression p .endOfInput)
    (hw : words text = p.tokens.map Token.anywhere) (hd : max p.tree.height p.nesting ≤ d) :
    ∃ t, parse ⟨.strict, d⟩ (.ofString text) = .ok t ∧ t.anywhere = p.tree.anywhere := by
  obtain ⟨q, hq, ht, ha⟩ := hp.reword hw
  refine ⟨q.tree, hq.parse_alone ht.symm (ht ▸ hq.tokens_ne_nil) ?_, ha.tree⟩
  rw [Tree.height_congr ha.tree, ha.nesting]
  exact hd

theorem tree_of_words (hne : (Scan.ofString text).tokens ≠ [])
    (h : parse ⟨.strict, d⟩ (.ofString text) = .ok t)
    (hp : Fits none .plain .expression p .endOfInput)
    (hw : words text = p.tokens.map Token.anywhere) : p.tree.anywhere = t.anywhere := by
  obtain ⟨q, hq, hqt, rfl, _⟩ := exists_phrase_of_parse hne h
  obtain ⟨r, hr, hrt, ha⟩ := hp.reword hw
  rw [← ha.tree, Derives.unique ⟨r, hr, hrt, rfl⟩ ⟨q, hq, hqt, rfl⟩]

def EvalError.anywhere (e : EvalError) : EvalError := { e with position := .start }

def Error.anywhere : Error → Error
  | .syntactic e => .syntactic { e with position := .start }
  | .runtime e => .runtime e.anywhere

section Value

variable (s : Symbols)

theorem literal_anywhere (t : Token) :
    t.anywhere.literal = t.literal.mapError EvalError.anywhere := by
  rw [Token.literal, Token.literal, Token.anywhere]
  cases Literal.read? t.lexeme <;> rfl

theorem named_anywhere (t : Token) (x : Option (Except EvalError Value)) :
    s.named t.anywhere (x.map (Except.mapError EvalError.anywhere)) =
      (s.named t x).mapError EvalError.anywhere := by
  unfold Symbols.named
  rw [Token.anywhere]
  cases s.get? t.lexeme with
  | none => rfl
  | some m =>
      cases m with
      | constant v => rfl
      | function f => rcases x with _ | _ | _ <;> rfl

theorem alone_anywhere (t : Token) :
    s.alone t.anywhere = (s.alone t).mapError EvalError.anywhere := by
  have hn := named_anywhere s t none
  have hk : t.anywhere.kind = t.kind := rfl
  unfold Symbols.alone
  rw [hk]
  cases t.kind with
  | integer | float => exact literal_anywhere t
  | identifier => exact hn
  | plus | minus | times | divide | power | bar | ampersand | percent | leftParen | rightParen
    | endOfInput | juxtaposition | unclassified => rfl

theorem function_anywhere (t : Tree) : s.function? t.anywhere = s.function? t := by
  rw [Symbols.function?, Symbols.function?, Tree.isBareName_anywhere]
  cases t <;> rfl

theorem eval_anywhere (t : Tree) :
    s.eval t.anywhere = (s.eval t).mapError EvalError.anywhere := by
  induction t with
  | leaf t | rightOnly t => exact alone_anywhere s t
  | unary t a ih =>
      have hn := named_anywhere s t (some (s.eval a))
      have ha := alone_anywhere s t
      have hk : t.anywhere.kind = t.kind := rfl
      rw [Tree.anywhere, Symbols.eval, Symbols.eval, ih, hk]
      cases t.kind with
      | plus | minus | times | divide | power | bar => cases s.eval a <;> rfl
      | identifier => exact hn
      | ampersand | percent | leftParen | rightParen | integer | float | endOfInput | juxtaposition
        | unclassified => exact ha
  | binary t a b ih ih' =>
      have hn := named_anywhere s t (some (s.eval a))
      have ha := alone_anywhere s t
      have hk : t.anywhere.kind = t.kind := rfl
      rw [Tree.anywhere, Symbols.eval, Symbols.eval, ih, ih', function_anywhere, hk]
      cases t.kind with
      | plus | minus | times | divide | power => cases s.eval a <;> cases s.eval b <;> rfl
      | juxtaposition =>
          cases s.function? a with
          | some f => cases s.eval b <;> rfl
          | none => cases s.eval a <;> cases s.eval b <;> rfl
      | bar => cases s.eval a <;> rfl
      | identifier => exact hn
      | ampersand | percent | leftParen | rightParen | integer | float | endOfInput
        | unclassified => exact ha

def outcome (o : Options) (text : String) : Except Error Value :=
  (evaluate o s text).mapError Error.anywhere

theorem evaluate_of_parse {o : Options} (h : parse o (.ofString text) = .ok t) :
    evaluate o s text = (s.eval t).mapError .runtime := by
  simp only [evaluate, h]
  cases s.eval t <;> rfl

theorem outcome_of_parse {o : Options} (h : parse o (.ofString text) = .ok t) :
    outcome s o text = (s.eval t.anywhere).mapError .runtime := by
  rw [outcome, evaluate_of_parse s h, eval_anywhere]
  cases s.eval t <;> rfl

end Value

end Reckon
