import Reckon.Proofs.Enclosure
import Reckon.Proofs.Gaps
import Reckon.Symbols.Builtin

namespace Reckon

def chain (names : List String) (operand : String) : String :=
  names.foldr (fun name rest => name ++ " " ++ rest) operand

/-- A number, or an expression in parentheses or in bars and parentheses. -/
inductive IsOperand : String → Prop
  | number {text} (hne : text ≠ "") (h : ∀ c ∈ text.toList, isNumeral c = true) : IsOperand text
  | parens {s d t} (hne : (Scan.ofString s).tokens ≠ [])
      (h : parse ⟨.strict, d⟩ (.ofString s) = .ok t) : IsOperand (inParens s)
  | bars {s d t} (hne : (Scan.ofString s).tokens ≠ [])
      (h : parse ⟨.strict, d⟩ (.ofString s) = .ok t) : IsOperand ("|" ++ inParens s ++ "|")

namespace Parser

structure Phrase.Operand (text : String) (p : Phrase) : Prop where
  fits (c : Context) (k : Kind) : Fits none c .factor p k
  joins : Context.plain.joins p.first.kind = true
  words : words text = p.tokens.map Token.anywhere

theorem exists_operand_of_numerals {text : String} (hne : text ≠ "")
    (h : ∀ c ∈ text.toList, isNumeral c = true) : ∃ p : Phrase, p.Operand text := by
  have hr : MaximalRun isNumeral [] text.toList [] :=
    ⟨mt String.toList_eq_nil_iff.1 hne, h, by simp, by simp⟩
  have hl := (Segment.number hr).isLexical
  rw [String.ofList_toList] at hl
  generalize hk : (if '.' ∈ text.toList then Kind.float else .integer) = k at hl
  have hk : k = .identifier ∨ k = .integer ∨ k = .float := by
    split at hk <;> simp [← hk]
  refine ⟨.operand (.word k text), fun c k' => .operand hk, ?_, ?_⟩
  · rcases hk with rfl | rfl | rfl <;> rfl
  · exact hl.words_lexeme.trans (by rw [Phrase.tokens_operand hk]; rfl)

theorem exists_operand {text : String} (h : IsOperand text) : ∃ p : Phrase, p.Operand text := by
  cases h with
  | number hne h => exact exists_operand_of_numerals hne h
  | parens hne h =>
      obtain ⟨p, hp, -⟩ := exists_whole_of_parse hne h
      exact ⟨p.wrapped, hp.fits.wrapped, rfl, hp.wrapped.words⟩
  | bars hne h =>
      obtain ⟨p, hp, -⟩ := exists_whole_of_parse hne h
      refine ⟨_, fun c k => ?_, rfl, hp.bars.words⟩
      exact .bars rfl (.term ((hp.fits.wrapped _ _).factor_term rfl)) (.written rfl)

namespace Phrase

/-- An operand with names in front of it, each of them with all that follows for its operand. -/
def called (names : List String) (p : Phrase) : Phrase :=
  names.foldr (fun name q => .applied (.operand (.word .identifier name)) q) p

variable {names : List String} {p : Phrase} {text : String}

theorem joins_first_called (h : p.Operand text) :
    Context.plain.joins (p.called names).first.kind = true := by
  cases names with
  | nil => exact h.joins
  | cons name names => rfl

theorem fits_called (h : p.Operand text) :
    Fits none .plain .application (p.called names) .endOfInput := by
  induction names with
  | nil => exact (h.fits _ _).factor_stop rfl
  | cons name names ih => exact .applied (.operand (.inl rfl)) rfl (joins_first_called h) ih

theorem words_chain (h : p.Operand text) (hn : ∀ name ∈ names, IsName name) :
    words (chain names text) = (p.called names).tokens.map Token.anywhere := by
  induction names with
  | nil => exact h.words
  | cons name names ih =>
      rw [List.forall_mem_cons] at hn
      have hw : words name = [.word .identifier name] := hn.1.isLexical.words_lexeme
      calc words (name ++ " " ++ chain names text)
          _ = words name ++ words (chain names text) := words_blank ..
          _ = [.word .identifier name] ++ (p.called names).tokens.map Token.anywhere := by
            rw [hw, ih hn.2]

theorem anywhere_tree_called (name : String) (names : List String) (p : Phrase) :
    (p.called (name :: names)).tree.anywhere = .binary (.word .juxtaposition "")
      (.leaf (.word .identifier name)) (p.called names).tree.anywhere := rfl

theorem nesting_le_called (names : List String) (p : Phrase) :
    p.nesting ≤ (p.called names).nesting := by
  induction names with
  | nil => exact Nat.le_refl _
  | cons name names ih =>
      refine Nat.le_trans ih ?_
      show _ ≤ (Phrase.applied _ (p.called names)).nesting
      rw [nesting_applied]
      omega

theorem height_le_called (names : List String) (p : Phrase) :
    p.tree.height ≤ (p.called names).tree.height := by
  induction names with
  | nil => exact Nat.le_refl _
  | cons name names ih =>
      refine Nat.le_trans ih ?_
      show _ ≤ max _ (p.called names).tree.height + 1
      omega

end Phrase

end Parser

namespace Meaning

def step : Meaning → Float → Float
  | constant c, x => c.number * x
  | function f, x => f x

def resultKind : Meaning → Float → NumberKind
  | constant _, x => .ofFloat x
  | function _, _ => .float

end Meaning

open Reckon.Parser

section Value

variable {σ : Symbols}

theorem eval_name {callee op : Token} {m : Meaning} (ho : op.kind = .juxtaposition)
    (hc : callee.kind = .identifier) (hm : σ.get? callee.lexeme = some m) (a : Tree) :
    σ.eval (.binary op (.leaf callee) a) =
      (σ.eval a).map fun v => ⟨m.step v.number, m.resultKind (m.step v.number)⟩ := by
  cases m with
  | function f => exact eval_call σ ho hc hm a
  | constant c =>
      have hf : σ.function? (.leaf callee) = none := by
        simp [Symbols.function?, Tree.token, hm]
      have hv : σ.eval (.leaf callee) = .ok c := by
        simp [Symbols.eval, Symbols.alone, hc, Symbols.named, hm]
      rw [Symbols.eval, ho, hf, hv]
      cases σ.eval a <;> rfl

theorem eval_called (b : String × Meaning) (bs : List (String × Meaning)) (p : Phrase)
    (h : ∀ c ∈ b :: bs, σ.get? c.1 = some c.2) :
    σ.eval (p.called ((b :: bs).map Prod.fst)).tree.anywhere =
      (σ.eval p.tree.anywhere).map fun v =>
        let x := (b :: bs).foldr (fun c => c.2.step) v.number
        ⟨x, b.2.resultKind x⟩ := by
  induction bs generalizing b with
  | nil =>
      rw [List.map_singleton, Phrase.anywhere_tree_called]
      exact eval_name rfl rfl (h b List.mem_cons_self) _
  | cons c bs ih =>
      rw [List.forall_mem_cons] at h
      rw [List.map_cons, Phrase.anywhere_tree_called, eval_name rfl rfl h.1, ih c h.2]
      cases σ.eval p.tree.anywhere <;> simp only [Except.map, List.foldr_cons]

end Value

/-- A chain fails only if its operand does, and the first name says what kind a value has. -/
theorem chain_is_right_fold (σ : Symbols) (d : Nat) (b : String × Meaning)
    (bs : List (String × Meaning)) (a : String)
    (hb : ∀ c ∈ b :: bs, IsName c.1 ∧ σ.get? c.1 = some c.2) (ha : IsOperand a)
    (hd : ¬IsTooDeep (parse ⟨.strict, d⟩ (.ofString (chain ((b :: bs).map Prod.fst) a)))) :
    (∃ t, parse ⟨.strict, d⟩ (.ofString (chain ((b :: bs).map Prod.fst) a)) = .ok t) ∧
      outcome σ ⟨.strict, d⟩ (chain ((b :: bs).map Prod.fst) a) =
        (outcome σ ⟨.strict, d⟩ a).map fun v =>
          let x := (b :: bs).foldr (fun c => c.2.step) v.number
          ⟨x, b.2.resultKind x⟩ := by
  obtain ⟨p, hp⟩ := exists_operand ha
  have hn : ∀ name ∈ (b :: bs).map Prod.fst, IsName name :=
    List.forall_mem_map.2 fun c hc => (hb c hc).1
  have hf : Fits none .plain .application (p.called ((b :: bs).map Prod.fst)) .endOfInput :=
    Phrase.fits_called hp
  have hw := Phrase.Whole.of_words (.term (.power (.application hf))) (Phrase.words_chain hp hn) hd
  have hpw : p.Whole d a := ⟨.term ((hp.fits _ _).factor_term rfl), hp.words,
    Nat.le_trans (Phrase.height_le_called _ p) hw.height,
    Nat.le_trans (Phrase.nesting_le_called _ p) hw.nesting⟩
  obtain ⟨t, ht, -⟩ := hw.parsesAs
  refine ⟨⟨t, ht⟩, ?_⟩
  rw [outcome_of_parsesAs σ hw.parsesAs, outcome_of_parsesAs σ hpw.parsesAs,
    eval_called b bs p fun c hc => (hb c hc).2]
  cases σ.eval p.tree.anywhere <;> rfl

theorem chain_of_function_and_constant :
    outcome .standard ⟨.strict, 9⟩ "sin pi |(2)|" =
      (outcome .standard ⟨.strict, 9⟩ "|(2)|").map fun v =>
        ⟨Float.sin (Symbols.pi * v.number), .float⟩ := by
  have hb : ∀ c ∈ [("sin", Meaning.function Float.sin), ("pi", .constant (.float Symbols.pi))],
      IsName c.1 ∧ Symbols.standard.get? c.1 = some c.2 := by
    simp [IsName, Symbols.standard, Symbols.standardNames, Symbols.defineAll, Symbols.get?_define]
  have ha : IsOperand "|(2)|" :=
    .bars (s := "2") (d := 1) (t := .leaf ⟨.integer, "2", 1, .start⟩) (by decide) (by decide)
  have hc : chain ["sin", "pi"] "|(2)|" = "sin pi |(2)|" := by decide +kernel
  have hd : ¬IsTooDeep (parse ⟨.strict, 9⟩ (.ofString (chain ["sin", "pi"] "|(2)|"))) := by
    have h : (parse ⟨.strict, 9⟩ (.ofString "sin pi |(2)|")).toOption.isSome = true := by
      decide +kernel
    rw [hc]
    rintro ⟨limit, p, he⟩
    rw [he] at h
    cases h
  have hr := (chain_is_right_fold .standard 9 _ _ "|(2)|" hb ha hd).2
  rwa [List.map_cons, List.map_singleton, hc] at hr

end Reckon
