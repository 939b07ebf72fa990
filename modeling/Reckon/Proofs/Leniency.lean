import Reckon.Proofs.Permission

namespace Reckon

variable {scan : Scan} {d : Nat} {e : SyntaxError}

theorem keeps_lenient {f : SyntaxFault} (h : f.isFinal = true) :
    Options.Keeps ⟨.strict, d⟩ ⟨.lenient, d⟩ f := by
  cases f with
  | unexpectedToken => trivial
  | tooDeep => exact (rfl : d = d)
  | unexpectedEnd | unmatchedDelimiter | trailingTokens => cases h

theorem lenient_error_of_strict (h : parse ⟨.strict, d⟩ scan = .error e)
    (hf : e.fault.isFinal = true) : parse ⟨.lenient, d⟩ scan = .error e :=
  parse_error_mono h (Options.within_lenient d) (keeps_lenient hf)

theorem isFinal_of_lenient_error (h : parse ⟨.lenient, d⟩ scan = .error e) :
    e.fault.isFinal = true := by
  rcases parse_error_fault h with ⟨lexeme, hf⟩ | hf | ⟨_, hl⟩
  · rw [hf, SyntaxFault.isFinal]
  · rw [hf, SyntaxFault.isFinal]
  · cases hl

theorem strict_error_of_lenient (h : parse ⟨.lenient, d⟩ scan = .error e) :
    ∃ e', parse ⟨.strict, d⟩ scan = .error e' := by
  cases hs : parse ⟨.strict, d⟩ scan with
  | error e' => exact ⟨e', rfl⟩
  | ok t =>
      rw [parse_mono hs (Options.within_lenient d)] at h
      cases h

/-- A lenient parser agrees with a strict one wherever nothing has to be supplied, and it fails only
at what cannot be. -/
theorem lenient_extends_strict (scan : Scan) (d : Nat) :
    (∀ t, parse ⟨.strict, d⟩ scan = .ok t → parse ⟨.lenient, d⟩ scan = .ok t) ∧
      (∀ e, parse ⟨.strict, d⟩ scan = .error e → e.fault.isFinal = true →
        parse ⟨.lenient, d⟩ scan = .error e) ∧
      ∀ e, parse ⟨.lenient, d⟩ scan = .error e →
        e.fault.isFinal = true ∧ ∃ e', parse ⟨.strict, d⟩ scan = .error e' := by
  refine ⟨?_, ?_, ?_⟩
  · intro t ht
    exact parse_mono ht (Options.within_lenient d)
  · intro e he hf
    exact lenient_error_of_strict he hf
  · intro e he
    exact ⟨isFinal_of_lenient_error he, strict_error_of_lenient he⟩

end Reckon
