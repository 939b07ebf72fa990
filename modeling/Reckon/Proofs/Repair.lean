import Reckon.Evaluation
import Reckon.Proofs.Derivation

namespace Reckon

open Reckon.Parser

def Token.zero (p : Position) : Token := ⟨.integer, "0", 1, p⟩

def Token.rightParen (p : Position) : Token := ⟨.rightParen, ")", 1, p⟩

def Token.bar (p : Position) : Token := ⟨.bar, "|", 1, p⟩

namespace Tree

variable (z : Token)

/-- The tree with another token where the end of the text stands for an operand. -/
def fill : Tree → Tree
  | leaf t => leaf (if t.kind = .endOfInput then z else t)
  | unary t a => unary t a.fill
  | binary t a b => binary t a.fill b.fill
  | rightOnly t b => rightOnly t b.fill

def ends : Tree → Nat
  | leaf t => if t.kind = .endOfInput then 1 else 0
  | unary _ a | rightOnly _ a => a.ends
  | binary _ a b => a.ends + b.ends

theorem height_fill (t : Tree) : (t.fill z).height = t.height := by
  induction t with
  | leaf | rightOnly => rfl
  | unary _ _ ih => rw [fill, height, height, ih]
  | binary _ _ _ ih ih' => rw [fill, height, height, ih, ih']

end Tree

section Value

variable (s : Symbols) (p : Position)

theorem alone_zero : s.alone (.zero p) = .ok (.integer 0.0) := by
  have h : Literal.read? "0" = some 0.0 := by decide
  simp [Symbols.alone, Token.zero, Token.literal, h]

theorem isBareName_fill (t : Tree) : (t.fill (.zero p)).isBareName = t.isBareName := by
  cases t with
  | leaf t =>
      rw [Tree.fill]
      split
      case isTrue h => simp [Tree.isBareName, Token.zero, h]
      case isFalse => rfl
  | unary | binary | rightOnly => rfl

theorem function_fill (t : Tree) : s.function? (t.fill (.zero p)) = s.function? t := by
  rw [Symbols.function?, Symbols.function?, isBareName_fill]
  cases h : t.isBareName with
  | false => rfl
  | true =>
      cases t with
      | leaf t =>
          have ht : t.kind ≠ .endOfInput := by
            intro he
            simp [Tree.isBareName, he] at h
          rw [Tree.fill, if_neg ht]
      | unary | binary | rightOnly => cases h

theorem eval_fill (t : Tree) : s.eval (t.fill (.zero p)) = s.eval t := by
  induction t with
  | leaf t =>
      rw [Tree.fill]
      split
      case isTrue h =>
        rw [Symbols.eval, alone_zero, Symbols.eval, Symbols.alone, h]
      case isFalse => rfl
  | unary t a ih => rw [Tree.fill, Symbols.eval, Symbols.eval, ih]
  | binary t a b ih ih' => rw [Tree.fill, Symbols.eval, Symbols.eval, ih, ih', function_fill]
  | rightOnly t b => rfl

end Value

def Token.IsCloser (t : Token) : Prop :=
  t.kind = .rightParen ∧ t.lexeme = ")" ∨ t.kind = .bar ∧ t.lexeme = "|"

theorem Token.isCloser_rightParen (p : Position) : (Token.rightParen p).IsCloser := .inl ⟨rfl, rfl⟩

theorem Token.isCloser_bar (p : Position) : (Token.bar p).IsCloser := .inr ⟨rfl, rfl⟩

inductive Mends : List Token → List Token → Prop
  | nil : Mends [] []
  | keep {t ts us} (h : Mends ts us) : Mends (t :: ts) (t :: us)
  | close {t ts us} (ht : t.IsCloser) (h : Mends ts us) : Mends ts (t :: us)

/-- The second list is the first one with closing delimiters put in and, so many times, with `z`
after all its tokens. -/
inductive Repairs (z : Token) : Nat → List Token → List Token → Prop
  | mended {ts us} (h : Mends ts us) : Repairs z 0 ts us
  | supplied {ts us vs} (h : Mends ts us) (h' : Mends [] vs) : Repairs z 1 ts (us ++ z :: vs)

section Repairs

variable {z t : Token} {n : Nat} {ts ts' us us' : List Token}

theorem Mends.refl (ts : List Token) : Mends ts ts := by
  induction ts with
  | nil => exact .nil
  | cons t ts ih => exact .keep ih

theorem Mends.append (h : Mends ts us) (h' : Mends ts' us') : Mends (ts ++ ts') (us ++ us') := by
  induction h with
  | nil => exact h'
  | keep _ ih => exact .keep ih
  | close ht _ ih => exact .close ht ih

theorem Repairs.mends (h : Repairs z n ts us) (hn : n = 0) : Mends ts us := by
  cases h with
  | mended h => exact h
  | supplied => cases hn

theorem Repairs.le_one (h : Repairs z n ts us) : n ≤ 1 := by
  cases h with
  | mended => exact Nat.zero_le 1
  | supplied => exact Nat.le_refl 1

theorem Repairs.prepend (h : Mends ts us) (h' : Repairs z n ts' us') :
    Repairs z n (ts ++ ts') (us ++ us') := by
  cases h' with
  | mended h' => exact .mended (h.append h')
  | supplied h' hv =>
      rw [← List.append_assoc]
      exact .supplied (h.append h') hv

theorem Repairs.join {n' : Nat} (left : Repairs z n ts us) (hn : n = 0) (mid : List Token)
    (right : Repairs z n' ts' us') :
    Repairs z (n + n') (ts ++ (mid ++ ts')) (us ++ (mid ++ us')) := by
  rw [hn, Nat.zero_add]
  exact .prepend (left.mends hn) (.prepend (.refl mid) right)

theorem Repairs.close (h : Repairs z n ts us) (ht : t.IsCloser) : Repairs z n ts (us ++ [t]) := by
  have hc : Mends [] [t] := .close ht .nil
  cases h with
  | mended h =>
      have := h.append hc
      rw [List.append_nil] at this
      exact .mended this
  | supplied h hv =>
      rw [List.append_assoc]
      exact .supplied h (hv.append hc)

end Repairs

namespace Parser

def Phrase.repair (at_ : Position) : Phrase → Phrase
  | operand t => operand (if t.kind = .endOfInput then .zero at_ else t)
  | parens t a k => parens t (a.repair at_) (some (k.getD (.rightParen at_)))
  | bars t a k => bars t (a.repair at_) (some (k.getD (.bar at_)))
  | sign t a => sign t (a.repair at_)
  | applied a b => applied (a.repair at_) (b.repair at_)
  | power a op b => power (a.repair at_) op (b.repair at_)
  | product a op b => product (a.repair at_) op (b.repair at_)
  | sum a op b => sum (a.repair at_) op (b.repair at_)

variable {stop : Position} {c : Context} {lvl : Level} {p : Phrase} {k : Kind}

theorem Phrase.nesting_repair (p : Phrase) : (p.repair stop).nesting = p.nesting := by
  induction p <;> simp_all [repair]

theorem Phrase.first_repair (stop : Position) (h : p.first.kind ≠ .endOfInput) :
    (p.repair stop).first = p.first := by
  induction p with
  | operand t =>
      rw [first] at h
      rw [repair, if_neg h]
  | parens | bars | sign => rfl
  | applied _ _ ih | power _ _ _ ih | product _ _ _ ih | sum _ _ _ ih => exact ih h

theorem Phrase.tokens_repair_ne_nil (p : Phrase) : (p.repair stop).tokens ≠ [] := by
  induction p with
  | operand t =>
      rw [repair]
      split
      case isTrue => simp [tokens, Token.zero]
      case isFalse h => simp [tokens, h]
  | parens | bars | sign => exact List.cons_ne_nil _ _
  | applied _ _ ih | power _ _ _ ih | product _ _ _ ih | sum _ _ _ ih => simp [repair, tokens, ih]

theorem Fits.tree_repair {spare : Option Token} (h : Fits spare c lvl p k) :
    (p.repair stop).tree = p.tree.fill (.zero stop) := by
  induction h with
  | term _ ih | power _ ih | application _ ih | factor _ _ ih | parens _ _ _ ih => exact ih
  | sum _ _ _ ih ih' | product _ _ _ ih ih' | raised _ _ _ ih ih' =>
      simp only [Phrase.repair, Phrase.tree, Tree.fill, ih, ih', Option.getD_some]
  | adjacent _ hj _ ih ih' | applied _ _ hj _ ih ih' =>
      simp only [Phrase.repair, Phrase.tree, Tree.fill, ih, ih',
        Phrase.first_repair stop (joins_ne_end hj)]
  | bars _ _ _ ih | sign _ _ ih => simp only [Phrase.repair, Phrase.tree, Tree.fill, ih]
  | operand | missing => rfl

/-- A phrase with everything written out is one of the strict grammar, also before another token, if
that one does not start an operand unless the old one did. -/
theorem Fits.strict_repair (h : Fits (some (.finish stop)) c lvl p k) {k' : Kind}
    (hk : c.joins k' = true → c.joins k = true) : Fits none c lvl (p.repair stop) k' := by
  induction h generalizing k' with
  | term _ ih => exact .term (ih hk)
  | sum _ hop _ ih ih' => exact .sum (ih id) hop (ih' hk)
  | power _ ih => exact .power (ih hk)
  | product _ hop _ ih ih' => exact .product (ih id) hop (ih' hk)
  | adjacent _ hj _ ih ih' =>
      have hf := Phrase.first_repair stop (joins_ne_end hj)
      exact .adjacent (ih (by rw [hf]; exact id)) (by rw [hf]; exact hj) (ih' hk)
  | application _ ih => exact .application (ih hk)
  | raised _ hop _ ih ih' => exact .raised (ih id) hop (ih' hk)
  | factor hp hn ih =>
      refine .factor (ih hk) ?_
      rw [Bool.and_eq_false_iff] at hn ⊢
      rw [hp.tree_repair, isBareName_fill]
      refine hn.imp_right fun hj => ?_
      rw [Bool.eq_false_iff] at hj ⊢
      exact fun h => hj (hk h)
  | applied hp hb hj _ ih ih' =>
      have hf := Phrase.first_repair stop (joins_ne_end hj)
      refine .applied (ih (by rw [hf]; exact id)) ?_ (by rw [hf]; exact hj) (ih' hk)
      rw [hp.tree_repair, isBareName_fill]
      exact hb
  | parens ht _ closed ih =>
      cases closed with
      | written h => exact .parens ht (ih id) (.written h)
      | assumed =>
          -- before the delimiter that is put in, no operand goes on
          have hn : Context.plain.joins (Token.rightParen stop).kind ≠ true := nofun
          exact .parens ht (ih fun h => absurd h hn) (.written rfl)
  | bars ht _ closed ih =>
      cases closed with
      | written h => exact .bars ht (ih id) (.written h)
      | assumed =>
          have hn : Context.bars.joins (Token.bar stop).kind ≠ true := nofun
          exact .bars ht (ih fun h => absurd h hn) (.written rfl)
  | sign ht _ ih => exact .sign ht (ih hk)
  | operand ht =>
      rw [Phrase.repair, if_neg (by rcases ht with ht | ht | ht <;> simp [ht])]
      exact .operand ht
  | missing h =>
      cases h
      exact .operand (.inr (.inl rfl))

theorem Closed.repairs {spare k? : Option Token} {i next : Kind} {n : Nat} {z closer : Token}
    {ts us : List Token} (closed : Closed spare k k? i next) (hk : k ≠ .endOfInput)
    (hc : closer.IsCloser) (h : Repairs z n ts us) (hi : i ≠ .endOfInput → n = 0) :
    Repairs z n (ts ++ k?.toList) (us ++ [k?.getD closer]) ∧ (next ≠ .endOfInput → n = 0) := by
  cases closed with
  | @written t next ht =>
      obtain rfl := hi (ht ▸ hk)
      exact ⟨.mended ((h.mends rfl).append (.refl [t])), fun _ => rfl⟩
  | assumed =>
      rw [Option.toList_none, List.append_nil]
      exact ⟨h.close hc, hi⟩

/-- What the repair does to the tokens of a phrase. The end of the text stands for an operand only
where the text ends. -/
theorem Fits.repairs (h : Fits (some (.finish stop)) c lvl p k) :
    Repairs (.zero stop) p.tree.ends p.tokens (p.repair stop).tokens ∧
      (k ≠ .endOfInput → p.tree.ends = 0) := by
  induction h with
  | term _ ih | power _ ih | application _ ih | factor _ _ ih => exact ih
  | @sum c p op q k _ hop _ ih ih' =>
      have hn := ih.2 (by rcases hop with hop | hop <;> simp [hop])
      exact ⟨ih.1.join hn [op] ih'.1, fun hk => Nat.add_eq_zero_iff.2 ⟨hn, ih'.2 hk⟩⟩
  | @product c p op q k _ hop _ ih ih' =>
      have hn := ih.2 (by rcases hop with hop | hop <;> simp [hop])
      exact ⟨ih.1.join hn [op] ih'.1, fun hk => Nat.add_eq_zero_iff.2 ⟨hn, ih'.2 hk⟩⟩
  | @raised c p op q k _ hop _ ih ih' =>
      have hn := ih.2 (by simp [hop])
      exact ⟨ih.1.join hn [op] ih'.1, fun hk => Nat.add_eq_zero_iff.2 ⟨hn, ih'.2 hk⟩⟩
  | adjacent _ hj _ ih ih' | applied _ _ hj _ ih ih' =>
      have hn := ih.2 (joins_ne_end hj)
      exact ⟨ih.1.join hn [] ih'.1, fun hk => Nat.add_eq_zero_iff.2 ⟨hn, ih'.2 hk⟩⟩
  | parens _ _ closed ih =>
      obtain ⟨hr, hn⟩ := closed.repairs nofun (Token.isCloser_rightParen stop) ih.1 ih.2
      exact ⟨.prepend (.refl [_]) hr, hn⟩
  | bars _ _ closed ih =>
      obtain ⟨hr, hn⟩ := closed.repairs nofun (Token.isCloser_bar stop) ih.1 ih.2
      exact ⟨.prepend (.refl [_]) hr, hn⟩
  | sign _ _ ih => exact ⟨.prepend (.refl [_]) ih.1, ih.2⟩
  | @operand c t k ht =>
      have he : t.kind ≠ .endOfInput := by rcases ht with ht | ht | ht <;> simp [ht]
      rw [Phrase.tree, Tree.ends, if_neg he, Phrase.repair, if_neg he]
      exact ⟨.mended (.refl _), fun _ => rfl⟩
  | missing h =>
      cases h
      exact ⟨.supplied .nil .nil, fun hk => absurd rfl hk⟩

theorem Phrase.Heads.getElem_toList {m : Strictness} {scan : Scan} {rest : List Token}
    (h : p.Heads m scan rest) :
    scan.toList[p.tokens.length]? = some (front scan.stop rest) := by
  rw [Scan.toList, h.tokens, List.append_assoc, List.getElem?_append_right (Nat.le_refl _),
    Nat.sub_self]
  cases rest <;> rfl

end Parser

theorem Kind.of_ends {k : Kind} (h : k.ends = true) (hw : k.isWritten = true) :
    k = .rightParen ∨ k = .ampersand ∨ k = .percent := by
  cases k <;> simp_all [ends, isWritten]

theorem kind_of_closes {text : String} {p : Phrase} {m : Strictness} {rest : List Token}
    (h : p.Heads m (.ofString text) rest) :
    (front (Scan.ofString text).stop rest).kind = .endOfInput ∨
      (front (Scan.ofString text).stop rest).kind = .rightParen ∨
      (front (Scan.ofString text).stop rest).kind = .ampersand ∨
      (front (Scan.ofString text).stop rest).kind = .percent := by
  have hc : (front (Scan.ofString text).stop rest).kind.ends = true := h.closes
  cases rest with
  | nil => exact .inl rfl
  | cons t rest =>
      have ht : t ∈ (Scan.ofString text).tokens := by simp [h.tokens]
      exact .inr (Kind.of_ends hc (Scan.isWritten_of_mem ht))

theorem parse_repair {scan : Scan} {p : Phrase} {rest : List Token} {d : Nat}
    (h : p.Heads .lenient scan rest) (ha : p.Admitted ⟨.lenient, d⟩ 0) :
    parse ⟨.strict, d⟩ ⟨(p.repair scan.stop).tokens, scan.stop⟩ =
      .ok (p.tree.fill (.zero scan.stop)) := by
  have hend : Context.plain.joins .endOfInput ≠ true := nofun
  have hf : Fits none .plain .expression (p.repair scan.stop) .endOfInput :=
    Fits.strict_repair h.fits fun hj => absurd hj hend
  rw [← h.fits.tree_repair]
  refine hf.parse_alone rfl p.tokens_repair_ne_nil ?_
  rw [h.fits.tree_repair, Tree.height_fill, Phrase.nesting_repair]
  exact p.admitted_zero.1 ha

/-- The tree of a lenient parser is what a strict one finds once the delimiters it assumed are
written out, with a zero for the operand it missed. -/
theorem lenient_parse_is_repaired (text : String) (d : Nat) (t : Tree)
    (hne : (Scan.ofString text).tokens ≠ [])
    (h : parse ⟨.lenient, d⟩ (.ofString text) = .ok t) :
    ∃ (k : Nat) (next : Token) (w : List Token),
      (Scan.ofString text).toList[k]? = some next ∧
      (next.kind = .endOfInput ∨ next.kind = .rightParen ∨ next.kind = .ampersand ∨
        next.kind = .percent) ∧
      Repairs (.zero (Scan.ofString text).stop) t.ends ((Scan.ofString text).tokens.take k) w ∧
      t.ends ≤ 1 ∧
      parse ⟨.strict, d⟩ ⟨w, (Scan.ofString text).stop⟩ =
        .ok (t.fill (.zero (Scan.ofString text).stop)) ∧
      ∀ s : Symbols, s.eval t = s.eval (t.fill (.zero (Scan.ofString text).stop)) := by
  obtain ⟨p, rest, hp, ha, rfl⟩ :=
    (parse_eq_ok_iff_heads (Scan.ne_end_of_mem text) hne).1 h
  have hr := (Fits.repairs hp.fits).1
  have htake : (Scan.ofString text).tokens.take p.tokens.length = p.tokens := by
    rw [hp.tokens, List.take_left]
  rw [← htake] at hr
  exact ⟨p.tokens.length, _, _, hp.getElem_toList, kind_of_closes hp, hr, hr.le_one,
    parse_repair hp ha, fun s => (eval_fill s _ p.tree).symm⟩

theorem repairs_bar_and_operand :
    (Scan.ofString "(|2)+(").tokens ≠ [] ∧
      ∃ t w, parse ⟨.lenient, 3⟩ (.ofString "(|2)+(") = .ok t ∧ t.ends = 1 ∧
        parse ⟨.strict, 3⟩ ⟨w, (Scan.ofString "(|2)+(").stop⟩ =
          .ok (t.fill (.zero (Scan.ofString "(|2)+(").stop)) := by
  have hne : (Scan.ofString "(|2)+(").tokens ≠ [] := by decide
  have h : parse ⟨.lenient, 3⟩ (.ofString "(|2)+(") =
      .ok (.binary ⟨.plus, "+", 1, ⟨4, 1, 5⟩⟩
        (.unary ⟨.bar, "|", 1, ⟨1, 1, 2⟩⟩ (.leaf ⟨.integer, "2", 1, ⟨2, 1, 3⟩⟩))
        (.leaf (.finish ⟨6, 1, 7⟩))) := by decide
  obtain ⟨k, next, w, -, -, -, -, hw, -⟩ := lenient_parse_is_repaired "(|2)+(" 3 _ hne h
  exact ⟨hne, _, w, h, rfl, hw⟩

end Reckon
