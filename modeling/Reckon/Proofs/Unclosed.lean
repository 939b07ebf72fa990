import Reckon.Proofs.ViablePrefix

namespace Reckon

/-- How an opening delimiter is told, and the word that closes it. -/
inductive Token.Opens (t : Token) : Char → Token → Prop
  | paren (h : t.kind = .leftParen) : t.Opens '(' (.word .rightParen ")")
  | bar (h : t.kind = .bar) : t.Opens '|' (.word .bar "|")

namespace Parser

variable {stop : Position} {r : Rule} {d n : Nat} {c : Context} {ts ts' ts₀ : List Token} {t : Tree}
  {e : SyntaxError} {x : Char} {op : Token} {us : List Token}

theorem Reads.suffix {o : Options} (h : Reads o stop r d c ts t ts') : ts' <:+ ts := by
  obtain ⟨us, hu, -⟩ := h.looks
  exact ⟨us, hu.symm⟩

theorem Signed.suffix (h : Signed c ts op ts₀) : ts₀ <:+ ts := by
  cases h with
  | written => exact List.suffix_cons _ _
  | adjacent => exact List.suffix_refl _

/-- An expression after its opening delimiter, in front of tokens that go on with neither. -/
inductive LeftOpen (stop : Position) (ts' : List Token) : SyntaxError → Token → List Token → Prop
  | parens {opening p} (ht : opening.kind = .leftParen)
      (inner : Fits none .plain .expression p (front stop ts').kind)
      (hc : Context.plain.closes (front stop ts').kind = true)
      (h : (front stop ts').kind ≠ .rightParen) :
      LeftOpen stop ts' ⟨.unmatchedDelimiter '(', opening.position⟩ opening p.tokens
  | bars {opening p} (ht : opening.kind = .bar)
      (inner : Fits none .bars .expression p (front stop ts').kind)
      (hc : Context.bars.closes (front stop ts').kind = true)
      (h : (front stop ts').kind ≠ .bar) :
      LeftOpen stop ts' ⟨.unmatchedDelimiter '|', opening.position⟩ opening p.tokens

def EndsOpen (stop : Position) (e : SyntaxError) (ts ts' : List Token) : Prop :=
  ∃ opening us, opening :: (us ++ ts') <:+ ts ∧ LeftOpen stop ts' e opening us

theorem EndsOpen.after (h : EndsOpen stop e ts₀ ts') (hs : ts₀ <:+ ts) :
    EndsOpen stop e ts ts' := by
  obtain ⟨opening, us, hu, ho⟩ := h
  exact ⟨opening, us, hu.trans hs, ho⟩

theorem EndsOpen.cons (h : EndsOpen stop e ts ts') (op : Token) :
    EndsOpen stop e (op :: ts) ts' := h.after (List.suffix_cons op ts)

/-- A rule that fails for want of a partner has read the whole expression before it, and each rule
around it passes the failure on. -/
theorem Fails.leftOpen (h : Fails ⟨.strict, n⟩ stop r d c ts e ts')
    (hw : ∀ t ∈ ts, t.kind ≠ .endOfInput) (hx : e.fault = .unmatchedDelimiter x) :
    EndsOpen stop e ts ts' := by
  induction h with
  | expressionFirst _ ih | termFirst _ ih | powerBase _ ih | callee _ ih => exact ih hw hx
  | expressionMore first _ ih | termMore first _ ih =>
      obtain ⟨p, hp⟩ := first.gives hw
      exact (ih (hp.ne_end hw) hx).after first.suffix
  | sumRight _ _ ih => exact (ih (List.forall_mem_cons.1 hw).2 hx).cons _
  | sumMore _ right _ _ ih =>
      have hw := (List.forall_mem_cons.1 hw).2
      obtain ⟨q, hq⟩ := right.gives hw
      exact ((ih (hq.ne_end hw) hx).after right.suffix).cons _
  | productRight sign _ ih => exact (ih (sign.ne_end hw) hx).after sign.suffix
  | productMore sign right _ _ ih =>
      have hw := sign.ne_end hw
      obtain ⟨q, hq⟩ := right.gives hw
      exact (ih (hq.ne_end hw) hx).after (right.suffix.trans sign.suffix)
  | exponent base _ _ _ ih =>
      obtain ⟨p, hp⟩ := base.gives hw
      have exponent := ih (List.forall_mem_cons.1 (hp.ne_end hw)).2 hx
      exact (exponent.cons _).after base.suffix
  | argument callee _ _ _ _ ih =>
      obtain ⟨p, hp⟩ := callee.gives hw
      exact (ih (hp.ne_end hw) hx).after callee.suffix
  | parensInner _ _ _ ih | barsInner _ _ _ ih | signOperand _ _ _ ih =>
      exact (ih (List.forall_mem_cons.1 hw).2 hx).cons _
  | @parensOpen d c t ts ts₁ a ht hd inner h hl =>
      obtain ⟨p, hp⟩ := inner.gives (List.forall_mem_cons.1 hw).2
      have hs : t :: (p.tokens ++ ts₁) <:+ t :: ts := hp.tokens ▸ List.suffix_refl _
      exact ⟨t, p.tokens, hs, .parens ht hp.fits (inner.stops trivial) h⟩
  | @barsOpen d c t ts ts₁ a ht hd inner h hl =>
      obtain ⟨p, hp⟩ := inner.gives (List.forall_mem_cons.1 hw).2
      have hs : t :: (p.tokens ++ ts₁) <:+ t :: ts := hp.tokens ▸ List.suffix_refl _
      exact ⟨t, p.tokens, hs, .bars ht hp.fits (inner.stops trivial) h⟩
  | sumTall | productTall | exponentDeep | powerTall | argumentDeep | applicationTall | factorDeep
    | barsTall | signTall | missing | unexpected => cases hx

theorem LeftOpen.accepted (h : LeftOpen stop ts' e op us) (hx : e.fault = .unmatchedDelimiter x) :
    e.position = op.position ∧ us ≠ [] ∧
      ∃ closing, op.Opens x closing ∧ Accepted (op :: (us ++ [closing])) := by
  cases h with
  | @parens _ p ht inner =>
      cases hx
      have hf : Fits none .plain .factor (.parens op p (some (.word .rightParen ")"))) .endOfInput :=
        .parens ht (inner.before_stop rfl) (.written rfl)
      have he : Fits none .plain .expression _ .endOfInput := .term (hf.factor_term rfl)
      exact ⟨rfl, inner.tokens_ne_nil, _, .paren ht, _, he.acceptedAt (Nat.le_refl _)⟩
  | @bars _ p ht inner =>
      cases hx
      have hf : Fits none .plain .factor (.bars op p (some (.word .bar "|"))) .endOfInput :=
        .bars ht (inner.before_stop rfl) (.written rfl)
      have he : Fits none .plain .expression _ .endOfInput := .term (hf.factor_term rfl)
      exact ⟨rfl, inner.tokens_ne_nil, _, .bar ht, _, he.acceptedAt (Nat.le_refl _)⟩

theorem LeftOpen.next_kind {next : Token} (h : LeftOpen stop (next :: ts) e op us)
    (hw : next.kind.isWritten = true) :
    next.kind ∈ [.ampersand, .percent] ∨ op.kind = .bar ∧ next.kind = .rightParen := by
  cases h with
  | parens ht _ hc h =>
      have he : next.kind.ends = true := hc
      rcases Kind.of_ends he hw with hk | hk | hk
      · exact absurd hk h
      · simp [hk]
      · simp [hk]
  | bars ht _ hc h =>
      have he : next.kind.ends = true := by
        rw [front_cons] at hc h
        cases hk : next.kind <;> simp_all [Context.closes]
      rcases Kind.of_ends he hw with hk | hk | hk
      · exact .inr ⟨ht, hk⟩
      · simp [hk]
      · simp [hk]

end Parser

open Reckon.Parser

variable {text : String} {d : Nat} {e : SyntaxError} {x : Char}

theorem exists_leftOpen (h : parse ⟨.strict, d⟩ (.ofString text) = .error e)
    (hx : e.fault = .unmatchedDelimiter x) :
    ∃ before opening us rest, (Scan.ofString text).tokens = before ++ opening :: (us ++ rest) ∧
      LeftOpen (Scan.ofString text).stop rest e opening us ∧
      Fails ⟨.strict, d⟩ (Scan.ofString text).stop .expression 0 .plain
        (Scan.ofString text).tokens e rest := by
  rcases (parse_eq_error_iff (tokens_ne_nil_of_error h)).1 h with
    ⟨rest, hr⟩ | ⟨t, next, rest, -, -, rfl⟩
  · obtain ⟨opening, us, ⟨before, hu⟩, ho⟩ := hr.leftOpen (Scan.ne_end_of_mem text) hx
    exact ⟨before, opening, us, rest, hu.symm, ho, hr⟩
  · cases hx

/-- A delimiter is told to be open if all it lacks is its partner, and another token is next. -/
theorem unmatchedDelimiter_is_innermost (text : String) (d : Nat) (e : SyntaxError) (x : Char)
    (h : parse ⟨.strict, d⟩ (.ofString text) = .error e) (hx : e.fault = .unmatchedDelimiter x) :
    ∃ before opening inner rest closing,
      (Scan.ofString text).tokens = before ++ opening :: (inner ++ rest) ∧
      e.position = opening.position ∧ opening.Opens x closing ∧ inner ≠ [] ∧
      Accepted (opening :: (inner ++ [closing])) ∧
      (rest = [] ∨ ∃ next rest', rest = next :: rest' ∧
        (next.kind ∈ [.ampersand, .percent] ∨ opening.kind = .bar ∧ next.kind = .rightParen) ∧
        Dead (before ++ opening :: (inner ++ [next]))) := by
  obtain ⟨before, opening, inner, rest, ht, ho, hf⟩ := exists_leftOpen h hx
  obtain ⟨hp, hne, closing, hc, ha⟩ := ho.accepted hx
  refine ⟨before, opening, inner, rest, closing, ht, hp, hc, hne, ha, ?_⟩
  cases rest with
  | nil => exact .inl rfl
  | cons next rest =>
      have hn : next ∈ (Scan.ofString text).tokens := by simp [ht]
      have hu : (Scan.ofString text).tokens = (before ++ opening :: inner) ++ next :: rest := by
        rw [ht, List.append_assoc, List.cons_append]
      have hd := hf.dead hu (by simp [hx])
      rw [List.append_assoc, List.cons_append] at hd
      exact .inr ⟨next, rest, rfl, ho.next_kind (Scan.isWritten_of_mem hn), hd⟩

theorem unmatched_bar_in_parens :
    parse ⟨.strict, 9⟩ (.ofString "(|2)") = .error ⟨.unmatchedDelimiter '|', ⟨1, 1, 2⟩⟩ ∧
      ∃ before opening inner rest closing,
        (Scan.ofString "(|2)").tokens = before ++ opening :: (inner ++ rest) ∧
        opening.position.offset = 1 ∧ opening.Opens '|' closing ∧
        Accepted (opening :: (inner ++ [closing])) := by
  have h : parse ⟨.strict, 9⟩ (.ofString "(|2)") =
      .error ⟨.unmatchedDelimiter '|', ⟨1, 1, 2⟩⟩ := by decide
  obtain ⟨before, opening, inner, rest, closing, ht, hp, ho, -, ha, -⟩ :=
    unmatchedDelimiter_is_innermost _ _ _ _ h rfl
  exact ⟨h, before, opening, inner, rest, closing, ht, congrArg Position.offset hp.symm, ho, ha⟩

end Reckon
