import Reckon.Token.Scan

namespace Reckon

def Kind.isWritten : Kind → Bool
  | endOfInput | juxtaposition | unclassified => false
  | _ => true

/-- The characters that are tokens by themselves, and what they are. -/
def Kind.symbols : List (Char × Kind) :=
  [('+', plus), ('-', minus), ('*', times), ('/', divide), ('^', power), ('|', bar),
    ('&', ampersand), ('%', percent), ('(', leftParen), (')', rightParen)]

theorem Kind.ofSymbol_of_mem_symbols : ∀ s ∈ symbols, ofSymbol? s.1 = some s.2 := by decide

theorem Kind.isWritten_of_mem_symbols : ∀ s ∈ symbols, s.2.isWritten = true := by decide

theorem Kind.ofSymbol_eq_some_iff {c : Char} {k : Kind} :
    ofSymbol? c = some k ↔ (c, k) ∈ symbols := by
  constructor
  · intro h
    unfold ofSymbol? at h
    split at h <;> cases h <;> decide
  · exact ofSymbol_of_mem_symbols _

theorem Kind.isWritten_of_ofRun {run : List Char} {k : Kind} (h : ofRun? run = some k) :
    k.isWritten = true := by
  cases run with
  | nil => cases h
  | cons c cs =>
      rw [ofRun?] at h
      split at h
      · cases h; rfl
      · split at h
        · cases h; split <;> rfl
        · exact isWritten_of_mem_symbols _ (ofSymbol_eq_some_iff.1 h)

theorem Token.isWritten_of_mem_ofRuns {p : Position} {rs : List (List Char)} {t : Token}
    (h : t ∈ Token.ofRuns p rs) : t.kind.isWritten = true := by
  induction rs generalizing p with
  | nil => cases h
  | cons run rs ih =>
      rw [ofRuns, List.mem_append] at h
      rcases h with h | h
      · obtain ⟨k, hk, rfl⟩ := Option.map_eq_some_iff.1 (Option.mem_toList.1 h)
        exact Kind.isWritten_of_ofRun hk
      · exact ih h

theorem Scan.isWritten_of_mem {text : String} {t : Token} (h : t ∈ (Scan.ofString text).tokens) :
    t.kind.isWritten = true := Token.isWritten_of_mem_ofRuns h

theorem Scan.ne_end_of_mem (text : String) :
    ∀ t ∈ (Scan.ofString text).tokens, t.kind ≠ .endOfInput := by
  intro t ht he
  have h := isWritten_of_mem ht
  rw [he] at h
  cases h

end Reckon
