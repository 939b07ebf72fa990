import Reckon.Proofs.Outcome

namespace Reckon

/-- Faults that lie in what is written, so that nothing supplied makes up for them. -/
def SyntaxFault.isFinal : SyntaxFault → Bool
  | unexpectedToken _ | tooDeep _ => true
  | unexpectedEnd | unmatchedDelimiter _ | trailingTokens _ => false

structure Options.Within (o o' : Options) : Prop where
  lenient : o.isLenient = true → o'.isLenient = true
  depth : o.maxDepth ≤ o'.maxDepth

/-- The faults for which the second parser is no better than the first. -/
def Options.Keeps (o o' : Options) : SyntaxFault → Prop
  | .unexpectedToken _ => True
  | .tooDeep _ => o.maxDepth = o'.maxDepth
  | .unexpectedEnd | .unmatchedDelimiter _ | .trailingTokens _ => o'.isLenient = false

theorem Options.within_of_le (m : Strictness) {d d' : Nat} (h : d ≤ d') :
    Options.Within ⟨m, d⟩ ⟨m, d'⟩ := ⟨id, h⟩

theorem Options.within_lenient (d : Nat) : Options.Within ⟨.strict, d⟩ ⟨.lenient, d⟩ :=
  ⟨nofun, Nat.le_refl d⟩

namespace Parser

variable {o o' : Options} {stop : Position} {r : Rule} {d : Nat} {c : Context}
  {ts ts' : List Token} {t : Tree} {e : SyntaxError}

theorem Closes.mono {k : Kind} {k? : Option Token} (h : Closes o stop k ts k? ts')
    (ho : o.Within o') : Closes o' stop k ts k? ts' := by
  cases h with
  | written h => exact .written h
  | assumed hl h => exact .assumed (ho.lenient hl) h

/-- What a parser reads, one that permits more reads too. -/
theorem Reads.mono (h : Reads o stop r d c ts t ts') (ho : o.Within o') :
    Reads o' stop r d c ts t ts' := by
  have hle : ∀ {n}, n ≤ o.maxDepth → n ≤ o'.maxDepth := fun hn => Nat.le_trans hn ho.depth
  induction h with
  | expression _ _ ih ih' => exact .expression ih ih'
  | sumEnd h => exact .sumEnd h
  | sumStep hop _ hh _ ih ih' => exact .sumStep hop ih (hle hh) ih'
  | term _ _ ih ih' => exact .term ih ih'
  | productEnd h hj => exact .productEnd h hj
  | productStep sign _ hh _ ih ih' => exact .productStep sign ih (hle hh) ih'
  | power _ h ih => exact .power ih h
  | raised _ hop hd _ hh ih ih' => exact .raised ih hop (hle hd) ih' (hle hh)
  | application _ h ih => exact .application ih h
  | applied _ ht hj hd _ hh ih ih' => exact .applied ih ht hj (hle hd) ih' (hle hh)
  | parens ht hd _ closes ih => exact .parens ht (hle hd) ih (closes.mono ho)
  | bars ht hd _ closes hh ih => exact .bars ht (hle hd) ih (closes.mono ho) (hle hh)
  | sign ht hd _ hh ih => exact .sign ht (hle hd) ih (hle hh)
  | leaf ht hd => exact .leaf ht (hle hd)
  | missing hl h hd => exact .missing (ho.lenient hl) h (hle hd)

theorem tooDeep_eq (h : o.maxDepth = o'.maxDepth) (t : Token) : tooDeep o t = tooDeep o' t := by
  rw [tooDeep, tooDeep, h]

theorem Fails.mono (h : Fails o stop r d c ts e ts') (ho : o.Within o') (hk : o.Keeps o' e.fault) :
    Fails o' stop r d c ts e ts' := by
  have hle : ∀ {n}, n ≤ o.maxDepth → n ≤ o'.maxDepth := fun hn => Nat.le_trans hn ho.depth
  induction h with
  | expressionFirst _ ih => exact .expressionFirst (ih hk)
  | expressionMore first _ ih => exact .expressionMore (first.mono ho) (ih hk)
  | sumRight hop _ ih => exact .sumRight hop (ih hk)
  | sumTall hop right hh =>
      rw [tooDeep_eq hk]
      exact .sumTall hop (right.mono ho) (hk ▸ hh)
  | sumMore hop right hh _ ih => exact .sumMore hop (right.mono ho) (hle hh) (ih hk)
  | termFirst _ ih => exact .termFirst (ih hk)
  | termMore first _ ih => exact .termMore (first.mono ho) (ih hk)
  | productRight sign _ ih => exact .productRight sign (ih hk)
  | productTall sign right hh =>
      rw [tooDeep_eq hk]
      exact .productTall sign (right.mono ho) (hk ▸ hh)
  | productMore sign right hh _ ih => exact .productMore sign (right.mono ho) (hle hh) (ih hk)
  | powerBase _ ih => exact .powerBase (ih hk)
  | exponentDeep base hop hd =>
      rw [tooDeep_eq hk]
      exact .exponentDeep (base.mono ho) hop (hk ▸ hd)
  | exponent base hop hd _ ih => exact .exponent (base.mono ho) hop (hle hd) (ih hk)
  | powerTall base hop hd exponent hh =>
      rw [tooDeep_eq hk]
      exact .powerTall (base.mono ho) hop (hle hd) (exponent.mono ho) (hk ▸ hh)
  | callee _ ih => exact .callee (ih hk)
  | argumentDeep callee ht hj hd =>
      rw [tooDeep_eq hk]
      exact .argumentDeep (callee.mono ho) ht hj (hk ▸ hd)
  | argument callee ht hj hd _ ih => exact .argument (callee.mono ho) ht hj (hle hd) (ih hk)
  | applicationTall callee ht hj hd argument hh =>
      rw [tooDeep_eq hk]
      exact .applicationTall (callee.mono ho) ht hj (hle hd) (argument.mono ho) (hk ▸ hh)
  | factorDeep hd =>
      rw [tooDeep_eq hk]
      exact .factorDeep (hk ▸ hd)
  | parensInner ht hd _ ih => exact .parensInner ht (hle hd) (ih hk)
  | parensOpen ht hd inner h _ => exact .parensOpen ht (hle hd) (inner.mono ho) h hk
  | barsInner ht hd _ ih => exact .barsInner ht (hle hd) (ih hk)
  | barsOpen ht hd inner h _ => exact .barsOpen ht (hle hd) (inner.mono ho) h hk
  | barsTall ht hd inner closes hh =>
      rw [tooDeep_eq hk]
      exact .barsTall ht (hle hd) (inner.mono ho) (closes.mono ho) (hk ▸ hh)
  | signOperand ht hd _ ih => exact .signOperand ht (hle hd) (ih hk)
  | signTall ht hd operand hh =>
      rw [tooDeep_eq hk]
      exact .signTall ht (hle hd) (operand.mono ho) (hk ▸ hh)
  | missing _ h hd => exact .missing hk h (hle hd)
  | unexpected hd hs ht => exact .unexpected (hle hd) hs ht

theorem Fails.fault (h : Fails o stop r d c ts e ts') :
    (∃ lexeme, e.fault = .unexpectedToken lexeme) ∨ e.fault = .tooDeep o.maxDepth ∨
      e.fault.isFinal = false ∧ o.isLenient = false := by
  induction h with
  | expressionFirst _ ih | expressionMore _ _ ih | sumRight _ _ ih | sumMore _ _ _ _ ih
    | termFirst _ ih | termMore _ _ ih | productRight _ _ ih | productMore _ _ _ _ ih
    | powerBase _ ih | exponent _ _ _ _ ih | callee _ ih | argument _ _ _ _ _ ih
    | parensInner _ _ _ ih | barsInner _ _ _ ih | signOperand _ _ _ ih => exact ih
  | sumTall | productTall | exponentDeep | powerTall | argumentDeep | applicationTall | factorDeep
    | barsTall | signTall => exact .inr (.inl rfl)
  | parensOpen _ _ _ _ hl | barsOpen _ _ _ _ hl | missing hl => exact .inr (.inr ⟨rfl, hl⟩)
  | unexpected => exact .inl ⟨_, rfl⟩

end Parser

open Reckon.Parser

variable {o o' : Options} {scan : Scan} {t : Tree} {e : SyntaxError}

theorem tokens_ne_nil_of_error (h : parse o scan = .error e) : scan.tokens ≠ [] := by
  intro hn
  rw [parse_nil hn] at h
  cases h

theorem parse_mono (h : parse o scan = .ok t) (ho : o.Within o') : parse o' scan = .ok t := by
  by_cases hne : scan.tokens = []
  · rw [parse_nil hne] at h ⊢
    exact h
  · obtain ⟨rest, hr, hl⟩ := (parse_eq_ok_iff hne).1 h
    refine (parse_eq_ok_iff hne).2 ⟨rest, hr.mono ho, fun hs => hl ?_⟩
    cases ho' : o.isLenient with
    | false => rfl
    | true => rw [ho.lenient ho'] at hs; cases hs

theorem parse_error_mono (h : parse o scan = .error e) (ho : o.Within o')
    (hk : o.Keeps o' e.fault) : parse o' scan = .error e := by
  have hne := tokens_ne_nil_of_error h
  rcases (parse_eq_error_iff hne).1 h with ⟨rest, hf⟩ | ⟨t, next, rest, hr, _, rfl⟩
  · exact parse_of_fails hne (hf.mono ho hk)
  · exact (parse_eq_error_iff hne).2 (.inr ⟨t, next, rest, hr.mono ho, hk, rfl⟩)

theorem parse_error_fault (h : parse o scan = .error e) :
    (∃ lexeme, e.fault = .unexpectedToken lexeme) ∨ e.fault = .tooDeep o.maxDepth ∨
      e.fault.isFinal = false ∧ o.isLenient = false := by
  rcases (parse_eq_error_iff (tokens_ne_nil_of_error h)).1 h with ⟨_, hf⟩ | ⟨_, _, _, _, hl, rfl⟩
  · exact hf.fault
  · exact .inr (.inr ⟨rfl, hl⟩)

end Reckon
