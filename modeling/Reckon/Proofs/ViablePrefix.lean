import Reckon.Proofs.Enclosure
import Reckon.Proofs.Lookahead
import Reckon.Proofs.Repair

namespace Reckon

namespace Parser

variable {stop : Position} {r : Rule} {d n : Nat} {c : Context} {lvl : Level} {k : Kind}
  {ts ts' us : List Token} {t : Tree} {e : SyntaxError} {p : Phrase} {op next : Token}

/-- An operand is missing in front of a token that starts none, or in front of the end. -/
inductive Offends (stop : Position) : SyntaxError → List Token → Prop
  | token {t : Token} {ts : List Token} (hs : t.kind.startsOperand = false)
      (ht : t.kind ≠ .plus ∧ t.kind ≠ .minus ∧ t.kind ≠ .endOfInput) :
      Offends stop ⟨.unexpectedToken t.lexeme, t.position⟩ (t :: ts)
  | finish {ts : List Token} (h : (front stop ts).kind = .endOfInput) :
      Offends stop ⟨.unexpectedEnd, (front stop ts).position⟩ ts

theorem Offends.startsOperand (h : Offends stop e ts) :
    (front stop ts).kind.startsOperand = false := by
  cases h with
  | token hs => exact hs
  | finish h => rw [h]; rfl

/-- Tokens that tokens of some text complete to a phrase, whatever comes after it. -/
def Completable (c : Context) (lvl : Level) (us : List Token) : Prop :=
  ∃ vs p, p.tokens = us ++ vs ∧ (∀ t ∈ vs, t.IsLexical) ∧ p.tree.isBareName = false ∧
    ∀ k, Fits none c lvl p k

theorem Level.before_end (lvl : Level) : lvl.Before c .endOfInput := by
  cases lvl <;> simp [Level.Before, Context.joins, Kind.startsOperand]

theorem Fits.first_eq (h : Fits none c lvl p .endOfInput) (hp : p.tokens = next :: ts) :
    p.first = next := by
  have hb : Precedes .start c lvl .endOfInput [] := ⟨rfl, fun _ => rfl, lvl.before_end⟩
  have hf := Fits.front_eq (o := ⟨.strict, 0⟩) h hb
  rw [hp] at hf
  exact hf.symm

namespace Completable

theorem lift {lvl' : Level} (h : Completable c lvl us)
    (hf : ∀ p k, p.tree.isBareName = false → Fits none c lvl p k → Fits none c lvl' p k) :
    Completable c lvl' us := by
  obtain ⟨vs, p, hp, hv, hb, h⟩ := h
  exact ⟨vs, p, hp, hv, hb, fun k => hf p k hb (h k)⟩

theorem nil : Completable c .factor [] := by
  refine ⟨[.word .integer "1"], .operand (.word .integer "1"), rfl, ?_, rfl, fun k => ?_⟩
  · rw [List.forall_mem_singleton]
    exact ⟨by decide, rfl⟩
  · exact .operand (.inr (.inl rfl))

theorem sum (h : Completable c .term us) (hp : Fits none c .expression p op.kind)
    (hop : op.kind = .plus ∨ op.kind = .minus) :
    Completable c .expression (p.tokens ++ op :: us) := by
  obtain ⟨vs, q, hq, hv, -, h⟩ := h
  refine ⟨vs, .sum p op q, ?_, hv, rfl, fun k => .sum hp hop (h k)⟩
  rw [Phrase.tokens, hq, List.append_assoc, List.cons_append]

theorem product (h : Completable c .power us) (hp : Fits none c .term p op.kind)
    (hop : op.kind = .times ∨ op.kind = .divide) :
    Completable c .term (p.tokens ++ op :: us) := by
  obtain ⟨vs, q, hq, hv, -, h⟩ := h
  refine ⟨vs, .product p (some op) q, ?_, hv, rfl, fun k => .product hp hop (h k)⟩
  rw [Phrase.tokens, hq, List.append_assoc, List.cons_append]
  rfl

theorem adjacent (h : Completable c .power (next :: us)) (hp : Fits none c .term p next.kind)
    (hj : c.joins next.kind = true) : Completable c .term (p.tokens ++ next :: us) := by
  obtain ⟨vs, q, hq, hv, -, h⟩ := h
  obtain rfl := (h .endOfInput).first_eq hq
  refine ⟨vs, .product p none q, ?_, hv, rfl, fun k => .adjacent hp hj (h k)⟩
  rw [Phrase.tokens, hq, List.append_assoc]
  rfl

theorem power (h : Completable c .power us) (hp : Fits none c .application p op.kind)
    (hop : op.kind = .power) : Completable c .power (p.tokens ++ op :: us) := by
  obtain ⟨vs, q, hq, hv, -, h⟩ := h
  refine ⟨vs, .power p op q, ?_, hv, rfl, fun k => .raised hp hop (h k)⟩
  rw [Phrase.tokens, hq, List.append_assoc, List.cons_append]

theorem applied (h : Completable c .application (next :: us)) (hp : Fits none c .factor p next.kind)
    (hb : p.tree.isBareName = true) (hj : c.joins next.kind = true) :
    Completable c .application (p.tokens ++ next :: us) := by
  obtain ⟨vs, q, hq, hv, -, h⟩ := h
  obtain rfl := (h .endOfInput).first_eq hq
  refine ⟨vs, .applied p q, ?_, hv, rfl, fun k => .applied hp hb hj (h k)⟩
  rw [Phrase.tokens, hq, List.append_assoc]

theorem parens (h : Completable .plain .expression us) (hop : op.kind = .leftParen) :
    Completable c .factor (op :: us) := by
  obtain ⟨vs, q, hq, hv, hb, h⟩ := h
  refine ⟨vs ++ [.word .rightParen ")"], .parens op q (some (.word .rightParen ")")),
    ?_, ?_, hb, ?_⟩
  · rw [Phrase.tokens, hq, List.cons_append, List.append_assoc]
    rfl
  · rw [List.forall_mem_append, List.forall_mem_singleton]
    exact ⟨hv, Token.isSymbol_rightParen.isLexical⟩
  · exact fun k => .parens hop (h .rightParen) (.written rfl)

theorem bars (h : Completable .bars .expression us) (hop : op.kind = .bar) :
    Completable c .factor (op :: us) := by
  obtain ⟨vs, q, hq, hv, -, h⟩ := h
  refine ⟨vs ++ [.word .bar "|"], .bars op q (some (.word .bar "|")), ?_, ?_, rfl, ?_⟩
  · rw [Phrase.tokens, hq, List.cons_append, List.append_assoc]
    rfl
  · rw [List.forall_mem_append, List.forall_mem_singleton]
    exact ⟨hv, Token.isSymbol_bar.isLexical⟩
  · exact fun k => .bars hop (h .bar) (.written rfl)

theorem sign (h : Completable c .application us) (hop : op.kind = .plus ∨ op.kind = .minus) :
    Completable c .factor (op :: us) := by
  obtain ⟨vs, q, hq, hv, -, h⟩ := h
  refine ⟨vs, .sign op q, ?_, hv, rfl, fun k => .sign hop (h k)⟩
  rw [Phrase.tokens, hq, List.cons_append]

end Completable

def UpTo (P : List Token → Prop) (ts ts' : List Token) : Prop := ∃ us, ts = us ++ ts' ∧ P us

namespace UpTo

variable {P Q : List Token → Prop}

theorem imp (h : UpTo P ts ts') (hq : ∀ us, P us → Q us) : UpTo Q ts ts' := by
  obtain ⟨us, hu, hp⟩ := h
  exact ⟨us, hu, hq us hp⟩

theorem cons (h : UpTo P ts ts') (op : Token) (hq : ∀ us, P us → Q (op :: us)) :
    UpTo Q (op :: ts) ts' := by
  obtain ⟨us, rfl, hp⟩ := h
  exact ⟨op :: us, rfl, hq us hp⟩

theorem append_cons (h : UpTo P ts ts') (vs : List Token) (op : Token)
    (hq : ∀ us, P us → Q (vs ++ op :: us)) : UpTo Q (vs ++ op :: ts) ts' := by
  obtain ⟨us, rfl, hp⟩ := h
  exact ⟨vs ++ op :: us, by rw [List.append_assoc, List.cons_append], hq us hp⟩

theorem uncons (h : UpTo P (next :: ts) ts') (hn : next.kind.startsOperand = true)
    (he : Offends stop e ts') : UpTo (fun us => P (next :: us)) ts ts' := by
  obtain ⟨us, hu, hp⟩ := h
  cases us with
  | nil =>
      cases hu
      have hs := he.startsOperand
      rw [front_cons, hn] at hs
      cases hs
  | cons u us =>
      cases hu
      exact ⟨us, rfl, hp⟩

end UpTo

/-- What a failure for want of an operand leaves behind: tokens that can be completed. Those of a
chain come with the operand so far. -/
def Rule.Leads (o : Options) (stop : Position) (d : Nat) (c : Context) (ts ts' : List Token) :
    Rule → Prop
  | .expression => UpTo (Completable c .expression) ts ts'
  | .sum l => ∀ ts₀ p, Covers o stop .expression d c ts₀ l ts p →
      UpTo (Completable c .expression) ts₀ ts'
  | .term => UpTo (Completable c .term) ts ts'
  | .product l => ∀ ts₀ p, Covers o stop .term d c ts₀ l ts p →
      UpTo (Completable c .term) ts₀ ts'
  | .power => UpTo (Completable c .power) ts ts'
  | .application => UpTo (Completable c .application) ts ts'
  | .factor => UpTo (Completable c .factor) ts ts'

/-- A one will do for the operand that is missing, and what is open there can be closed again, from
the inside out. -/
theorem Fails.leads (h : Fails ⟨.strict, n⟩ stop r d c ts e ts')
    (hw : ∀ t ∈ ts, t.kind ≠ .endOfInput) (he : Offends stop e ts') :
    r.Leads ⟨.strict, n⟩ stop d c ts ts' := by
  induction h with
  | expressionFirst _ ih => exact (ih hw he).imp fun _ h => h.lift fun _ _ _ => .term
  | expressionMore first _ ih =>
      obtain ⟨p, hp⟩ := first.gives hw
      exact ih (hp.ne_end hw) he _ p (hp.lift .term)
  | sumRight hop _ ih =>
      intro ts₀ p hp
      have right := ih (List.forall_mem_cons.1 hw).2 he
      rw [hp.tokens]
      exact right.append_cons _ _ fun _ h => h.sum hp.fits hop
  | sumMore hop right hh _ ih =>
      intro ts₀ p hp
      have hw := (List.forall_mem_cons.1 hw).2
      obtain ⟨q, hq⟩ := right.gives hw
      exact ih (hq.ne_end hw) he ts₀ _ (hp.sum hop hq hh)
  | termFirst _ ih => exact (ih hw he).imp fun _ h => h.lift fun _ _ _ => .power
  | termMore first _ ih =>
      obtain ⟨p, hp⟩ := first.gives hw
      exact ih (hp.ne_end hw) he _ p (hp.lift .power)
  | productRight sign _ ih =>
      intro ts₀ p hp
      have right := ih (sign.ne_end hw) he
      rw [hp.tokens]
      cases sign with
      | written hop => exact right.append_cons _ _ fun _ h => h.product hp.fits hop
      | adjacent hj =>
          have right := right.uncons (Context.joins_plain hj) he
          exact right.append_cons _ _ fun _ h => h.adjacent hp.fits hj
  | productMore sign right hh _ ih =>
      intro ts₀ p hp
      have hw := sign.ne_end hw
      obtain ⟨q, hq⟩ := right.gives hw
      obtain ⟨op?, hpq⟩ := hp.product sign hq hh
      exact ih (hq.ne_end hw) he ts₀ _ hpq
  | powerBase _ ih => exact (ih hw he).imp fun _ h => h.lift fun _ _ _ => .application
  | exponent base hop hd _ ih =>
      obtain ⟨p, hp⟩ := base.gives hw
      have exponent := ih (List.forall_mem_cons.1 (hp.ne_end hw)).2 he
      rw [hp.tokens]
      exact exponent.append_cons _ _ fun _ h => h.power hp.fits hop
  | callee _ ih =>
      exact (ih hw he).imp fun _ h => h.lift fun _ _ hb h => .factor h (by rw [hb]; rfl)
  | argument callee ht hj hd _ ih =>
      obtain ⟨p, hp⟩ := callee.gives hw
      have argument := (ih (hp.ne_end hw) he).uncons (Context.joins_plain hj) he
      rw [hp.tokens]
      exact argument.append_cons _ _ fun _ h => h.applied hp.fits (hp.tree ▸ ht) hj
  | parensInner ht hd _ ih =>
      have inner := ih (List.forall_mem_cons.1 hw).2 he
      exact inner.cons _ fun _ h => h.parens ht
  | barsInner ht hd _ ih =>
      have inner := ih (List.forall_mem_cons.1 hw).2 he
      exact inner.cons _ fun _ h => h.bars ht
  | signOperand ht hd _ ih =>
      have operand := ih (List.forall_mem_cons.1 hw).2 he
      exact operand.cons _ fun _ h => h.sign ht
  | missing | unexpected => exact ⟨[], rfl, .nil⟩
  | sumTall | productTall | exponentDeep | powerTall | argumentDeep | applicationTall | factorDeep
    | parensOpen | barsOpen | barsTall | signTall => cases he

theorem Fails.offends_or {o : Options} (h : Fails o stop r d c ts e ts') :
    Offends stop e ts' ∨ (∃ n, e.fault = .tooDeep n) ∨ ∃ x, e.fault = .unmatchedDelimiter x := by
  induction h with
  | expressionFirst _ ih | expressionMore _ _ ih | sumRight _ _ ih | sumMore _ _ _ _ ih
    | termFirst _ ih | termMore _ _ ih | productRight _ _ ih | productMore _ _ _ _ ih
    | powerBase _ ih | exponent _ _ _ _ ih | callee _ ih | argument _ _ _ _ _ ih
    | parensInner _ _ _ ih | barsInner _ _ _ ih | signOperand _ _ _ ih => exact ih
  | missing _ h => exact .inl (.finish h)
  | unexpected _ hs ht => exact .inl (.token hs ht)
  | sumTall | productTall | exponentDeep | powerTall | argumentDeep | applicationTall | factorDeep
    | barsTall | signTall => exact .inr (.inl ⟨_, rfl⟩)
  | parensOpen | barsOpen => exact .inr (.inr ⟨_, rfl⟩)

end Parser

open Reckon.Parser

def AcceptedAt (d : Nat) (w : List Token) : Prop :=
  w ≠ [] ∧ ∃ stop t, parse ⟨.strict, d⟩ ⟨w, stop⟩ = .ok t

def Accepted (w : List Token) : Prop := ∃ d, AcceptedAt d w

/-- Tokens that an expression can start with. -/
def Viable (w : List Token) : Prop := ∃ v, (∀ t ∈ v, t.IsLexical) ∧ Accepted (w ++ v)

def Dead (w : List Token) : Prop := ∀ v, ¬Accepted (w ++ v)

variable {text : String} {d : Nat} {e : SyntaxError} {p : Phrase} {us rest : List Token} {x : Token}
  {t : Tree} {scan : Scan}

theorem Parser.Fits.acceptedAt (h : Fits none .plain .expression p .endOfInput)
    (hd : max p.tree.height p.nesting ≤ d) : AcceptedAt d p.tokens :=
  ⟨h.tokens_ne_nil, .start, p.tree, h.parse_alone rfl h.tokens_ne_nil hd⟩

theorem Parser.Completable.viable (h : Completable .plain .expression us) : Viable us := by
  obtain ⟨vs, p, hp, hv, -, h⟩ := h
  exact ⟨vs, hv, _, hp ▸ (h .endOfInput).acceptedAt (Nat.le_refl _)⟩

theorem not_accepted (h : ∀ stop, ∃ e, parse ⟨.strict, d⟩ ⟨us, stop⟩ = .error e ∧
    ∀ n, e.fault ≠ .tooDeep n) : ¬Accepted us := by
  rintro ⟨d', -, stop, t, ht⟩
  obtain ⟨e, he, hf⟩ := h stop
  have hd : ¬IsTooDeep (parse ⟨.strict, d⟩ ⟨us, stop⟩) := by
    rintro ⟨n, p, hp⟩
    rw [he] at hp
    cases hp
    exact hf n rfl
  have hm := parse_mono ht (Options.within_of_le .strict (Nat.le_max_right d d'))
  rw [parse_eq_of_le hd (Nat.le_max_left d d'), he] at hm
  cases hm

theorem Parser.Fails.dead (hu : scan.tokens = us ++ x :: rest)
    (h : Fails ⟨.strict, d⟩ scan.stop .expression 0 .plain scan.tokens e (x :: rest))
    (hf : ∀ n, e.fault ≠ .tooDeep n) : Dead (us ++ [x]) := by
  intro v
  refine not_accepted (d := d) fun stop => ⟨e, ?_, hf⟩
  exact parse_of_fails (by simp) (h.looks.again hu stop v)

theorem Parser.Reads.dead (hu : scan.tokens = us ++ x :: rest)
    (h : Reads ⟨.strict, d⟩ scan.stop .expression 0 .plain scan.tokens t (x :: rest)) :
    Dead (us ++ [x]) := by
  intro v
  refine not_accepted (d := d) fun stop => ⟨⟨.trailingTokens x.lexeme, x.position⟩, ?_, nofun⟩
  exact (parse_eq_error_iff (by simp)).2 (.inr ⟨t, x, v, h.looks.again hu stop v, rfl, rfl⟩)

theorem Kind.of_not_starts {k : Kind} (hs : k.startsOperand = false)
    (hk : k ≠ .plus ∧ k ≠ .minus ∧ k ≠ .endOfInput) (hw : k.isWritten = true) :
    k ∈ [rightParen, times, divide, power, ampersand, percent] := by
  cases k <;> simp_all [startsOperand, isWritten]

theorem exists_offence (h : parse ⟨.strict, d⟩ (.ofString text) = .error e)
    (hf : (∃ x, e.fault = .unexpectedToken x) ∨ e.fault = .unexpectedEnd) :
    ∃ us rest, (Scan.ofString text).tokens = us ++ rest ∧ Viable us ∧
      Offends (Scan.ofString text).stop e rest ∧
      Fails ⟨.strict, d⟩ (Scan.ofString text).stop .expression 0 .plain
        (Scan.ofString text).tokens e rest := by
  rcases (parse_eq_error_iff (tokens_ne_nil_of_error h)).1 h with
    ⟨rest, hr⟩ | ⟨t, next, rest, -, -, rfl⟩
  · rcases hr.offends_or with ho | ⟨n, hn⟩ | ⟨x, hx⟩
    · obtain ⟨us, hu, hc⟩ := hr.leads (Scan.ne_end_of_mem text) ho
      exact ⟨us, rest, hu, hc.viable, ho, hr⟩
    · simp [hn] at hf
    · simp [hx] at hf
  · rcases hf with ⟨x, hf⟩ | hf <;> cases hf

theorem unexpectedToken_after_viable {lexeme : String}
    (h : parse ⟨.strict, d⟩ (.ofString text) = .error e)
    (hf : e.fault = .unexpectedToken lexeme) :
    ∃ us x rest, (Scan.ofString text).tokens = us ++ x :: rest ∧
      e = ⟨.unexpectedToken x.lexeme, x.position⟩ ∧
      x.kind ∈ [.rightParen, .times, .divide, .power, .ampersand, .percent] ∧
      Viable us ∧ Dead (us ++ [x]) := by
  obtain ⟨us, rest, hu, hv, ho, hr⟩ := exists_offence h (.inl ⟨lexeme, hf⟩)
  cases ho with
  | @token x rest hs hk =>
      have hx : x ∈ (Scan.ofString text).tokens := by simp [hu]
      have hw := Scan.isWritten_of_mem hx
      exact ⟨us, x, rest, hu, rfl, Kind.of_not_starts hs hk hw, hv, hr.dead hu nofun⟩
  | finish => cases hf

theorem unexpectedEnd_after_viable (h : parse ⟨.strict, d⟩ (.ofString text) = .error e)
    (hf : e.fault = .unexpectedEnd) :
    e.position = (Scan.ofString text).finish.position ∧ Viable (Scan.ofString text).tokens := by
  obtain ⟨us, rest, hu, hv, ho, -⟩ := exists_offence h (.inr hf)
  cases ho with
  | token => cases hf
  | finish hk =>
      cases rest with
      | nil =>
          rw [List.append_nil] at hu
          exact ⟨rfl, hu ▸ hv⟩
      | cons x rest => exact absurd hk (Scan.ne_end_of_mem text x (by simp [hu]))

theorem trailingTokens_after_accepted {lexeme : String}
    (h : parse ⟨.strict, d⟩ (.ofString text) = .error e)
    (hf : e.fault = .trailingTokens lexeme) :
    ∃ us x rest, (Scan.ofString text).tokens = us ++ x :: rest ∧
      e = ⟨.trailingTokens x.lexeme, x.position⟩ ∧
      x.kind ∈ [.rightParen, .ampersand, .percent] ∧ AcceptedAt d us ∧ Dead (us ++ [x]) := by
  rcases (parse_eq_error_iff (tokens_ne_nil_of_error h)).1 h with
    ⟨rest, hr⟩ | ⟨t, x, rest, hr, -, rfl⟩
  · rcases hr.offends_or with ho | ⟨n, hn⟩ | ⟨x, hx⟩
    · cases ho <;> cases hf
    · simp [hn] at hf
    · simp [hx] at hf
  · obtain ⟨p, hp⟩ := hr.gives (Scan.ne_end_of_mem text)
    have hx : x ∈ (Scan.ofString text).tokens := by simp [hp.tokens]
    have hk := Kind.of_ends (hr.stops trivial) (Scan.isWritten_of_mem hx)
    have ha := (hp.fits.before_stop rfl).acceptedAt (p.admitted_zero.1 hp.admitted)
    exact ⟨p.tokens, x, rest, hp.tokens, rfl, by simpa using hk, ha, hr.dead hp.tokens⟩

/-- Strict errors are told as soon as no expression starts with the tokens read. -/
theorem strict_errors_after_viable (text : String) (d : Nat) (e : SyntaxError)
    (h : parse ⟨.strict, d⟩ (.ofString text) = .error e) :
    (∀ lexeme, e.fault = .unexpectedToken lexeme →
      ∃ us x rest, (Scan.ofString text).tokens = us ++ x :: rest ∧
        e = ⟨.unexpectedToken x.lexeme, x.position⟩ ∧
        x.kind ∈ [.rightParen, .times, .divide, .power, .ampersand, .percent] ∧
        Viable us ∧ Dead (us ++ [x])) ∧
      (∀ lexeme, e.fault = .trailingTokens lexeme →
        ∃ us x rest, (Scan.ofString text).tokens = us ++ x :: rest ∧
          e = ⟨.trailingTokens x.lexeme, x.position⟩ ∧
          x.kind ∈ [.rightParen, .ampersand, .percent] ∧ AcceptedAt d us ∧ Dead (us ++ [x])) ∧
      (e.fault = .unexpectedEnd →
        e.position = (Scan.ofString text).finish.position ∧ Viable (Scan.ofString text).tokens) :=
  ⟨fun _ => unexpectedToken_after_viable h, fun _ => trailingTokens_after_accepted h,
    unexpectedEnd_after_viable h⟩

theorem viable_open_bar :
    parse ⟨.strict, 9⟩ (.ofString "(|2+)") = .error ⟨.unexpectedToken ")", ⟨4, 1, 5⟩⟩ ∧
      ∃ us x rest, (Scan.ofString "(|2+)").tokens = us ++ x :: rest ∧ x.position.offset = 4 ∧
        Viable us ∧ Dead (us ++ [x]) := by
  have h : parse ⟨.strict, 9⟩ (.ofString "(|2+)") =
      .error ⟨.unexpectedToken ")", ⟨4, 1, 5⟩⟩ := by decide
  obtain ⟨us, x, rest, hu, he, -, hv, hd⟩ := (strict_errors_after_viable _ _ _ h).1 ")" rfl
  have hp : x.position = ⟨4, 1, 5⟩ := by
    injection he with _ hp
    exact hp.symm
  exact ⟨h, us, x, rest, hu, congrArg Position.offset hp, hv, hd⟩

end Reckon
