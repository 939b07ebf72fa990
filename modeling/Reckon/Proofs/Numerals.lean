import Reckon.Proofs.Decimals
import Reckon.Proofs.Enclosure
import Reckon.Proofs.Finding

namespace Reckon

open Binary64

/-- A decimal as it is written, with no sign and no exponent. -/
inductive Numeral : List Char → Decimal → Prop
  | whole {ds} (ne_nil : ds ≠ []) (digits : ∀ c ∈ ds, c.isDigit = true) :
      Numeral ds ⟨Nat.ofDigitChars 10 ds 0, 0⟩
  | point {ds es} (ne_nil : ds ≠ []) (digits : ∀ c ∈ ds, c.isDigit = true)
      (part : ∀ c ∈ es, c.isDigit = true) :
      Numeral (ds ++ '.' :: es) ⟨Nat.ofDigitChars 10 (ds ++ es) 0, -es.length⟩

namespace Literal

variable {cs ds es : List Char} {c : Char}

theorem isNumeral_of_digit (h : c.isDigit = true) : isNumeral c = true := by
  rw [isNumeral, h, Bool.true_or]

theorem ne_dot_of_digit (h : c.isDigit = true) : c ≠ '.' := by
  rintro rfl
  cases h

theorem digit_of_numeral (h : isNumeral c = true) (hp : c ≠ '.') : c.isDigit = true := by
  rw [isNumeral, Bool.or_eq_true, beq_iff_eq] at h
  exact h.resolve_right hp

theorem sign_of_numerals (h : ∀ c ∈ cs, isNumeral c = true) : sign cs = (false, cs) := by
  unfold sign
  split
  · exact absurd (h _ List.mem_cons_self) (by decide)
  · exact absurd (h _ List.mem_cons_self) (by decide)
  · rfl

theorem decimal_eq_point (hd : ∀ c ∈ ds, c.isDigit = true) (es : List Char) :
    decimal? (ds ++ '.' :: es) =
      if ds ++ es.takeWhile Char.isDigit = [] then none
      else (exponent? (es.dropWhile Char.isDigit)).map fun e =>
        ⟨Nat.ofDigitChars 10 (ds ++ es.takeWhile Char.isDigit) 0,
          e - (es.takeWhile Char.isDigit).length⟩ := by
  have ht : (ds ++ '.' :: es).takeWhile Char.isDigit = ds := by
    rw [List.takeWhile_append_of_pos hd, List.takeWhile_cons_of_neg (by decide), List.append_nil]
  have hw : (ds ++ '.' :: es).dropWhile Char.isDigit = '.' :: es := by
    rw [List.dropWhile_append_of_pos hd, List.dropWhile_cons_of_neg (by decide)]
  simp only [decimal?, ht, hw, fraction]

theorem decimal_point (hd : ∀ c ∈ ds, c.isDigit = true) (he : ∀ c ∈ es, c.isDigit = true)
    (hne : ds ++ es ≠ []) :
    decimal? (ds ++ '.' :: es) = some ⟨Nat.ofDigitChars 10 (ds ++ es) 0, -es.length⟩ := by
  rw [decimal_eq_point hd, List.takeWhile_eq_self_iff.2 he, List.dropWhile_eq_nil_iff.2 he,
    if_neg hne, exponent?, Option.map_some, Int.zero_sub]

end Literal

section Tokens

variable {text : String} {t : Token}

theorem numerals_of_number (h : t ∈ (Scan.ofString text).tokens)
    (hk : t.kind = .integer ∨ t.kind = .float) :
    (t.lexeme.toList ≠ [] ∧ ∀ c ∈ t.lexeme.toList, isNumeral c = true) ∧
      t.kind = if '.' ∈ t.lexeme.toList then .float else .integer := by
  obtain ⟨before, run, after, -, hs, hl, -, -⟩ := Scan.mem_tokens_iff.1 h
  rw [hl, String.toList_ofList]
  generalize t.kind = k at hs hk
  cases hs with
  | number h => exact ⟨⟨h.ne_nil, h.mem⟩, rfl⟩
  | name => rcases hk with hk | hk <;> cases hk
  | symbol h =>
      have hs : ∀ s ∈ Kind.symbols, ¬(s.2 = .integer ∨ s.2 = .float) := by decide
      exact absurd hk (hs _ h)

theorem digits_of_integer (h : t ∈ (Scan.ofString text).tokens) (hk : t.kind = .integer) :
    t.lexeme.toList ≠ [] ∧ ∀ c ∈ t.lexeme.toList, c.isDigit = true := by
  obtain ⟨⟨hne, hn⟩, ht⟩ := numerals_of_number h (.inl hk)
  refine ⟨hne, fun c hc => Literal.digit_of_numeral (hn c hc) ?_⟩
  rintro rfl
  rw [if_pos hc, hk] at ht
  cases ht

end Tokens

namespace Parser

variable {m t : Token}

theorem parse_number (ht : t.kind = .integer ∨ t.kind = .float) (stop : Position) :
    parse .default ⟨[t], stop⟩ = .ok (.leaf t) := by
  obtain ⟨k, lexeme, size, p⟩ := t
  rcases ht with rfl | rfl <;> rfl

theorem parse_minus_number (hm : m.kind = .minus) (ht : t.kind = .integer ∨ t.kind = .float)
    (stop : Position) : parse .default ⟨[m, t], stop⟩ = .ok (.unary m (.leaf t)) := by
  obtain ⟨k, lexeme, size, p⟩ := t
  obtain ⟨k', lexeme', size', p'⟩ := m
  cases hm
  rcases ht with rfl | rfl <;> rfl

end Parser

namespace Numeral

open Reckon.Parser

variable {cs : List Char} {d : Decimal}

theorem ne_nil (h : Numeral cs d) : cs ≠ [] := by
  cases h with
  | whole hne => exact hne
  | point => simp

theorem mem (h : Numeral cs d) : ∀ c ∈ cs, isNumeral c = true := by
  cases h with
  | whole _ hd => exact fun c hc => Literal.isNumeral_of_digit (hd c hc)
  | point _ hd he =>
      intro c hc
      rcases List.mem_append.1 hc with hc | hc
      · exact Literal.isNumeral_of_digit (hd c hc)
      · rcases List.mem_cons.1 hc with rfl | hc
        · rfl
        · exact Literal.isNumeral_of_digit (he c hc)

theorem sign_eq (h : Numeral cs d) : Literal.sign cs = (false, cs) := Literal.sign_of_numerals h.mem

theorem decimal_eq (h : Numeral cs d) : Literal.decimal? cs = some d := by
  cases h with
  | whole hne hd =>
      have ht : cs.takeWhile Char.isDigit = cs := List.takeWhile_eq_self_iff.2 hd
      have hw : cs.dropWhile Char.isDigit = [] := List.dropWhile_eq_nil_iff.2 hd
      simp only [Literal.decimal?, ht, hw, Literal.fraction, List.append_nil]
      rw [if_neg hne]
      rfl
  | point hne hd he =>
      exact Literal.decimal_point hd he fun h => hne (List.append_eq_nil_iff.1 h).1

theorem read_eq (h : Numeral cs d) :
    Literal.read? (String.ofList cs) = some (ofRank false d.rank) := by
  rw [Literal.read?, String.toList_ofList, h.sign_eq]
  simp only [h.decimal_eq, Option.map_some, Option.some_or]

def token (before cs : List Char) : Token :=
  ⟨if '.' ∈ cs then .float else .integer, String.ofList cs, (String.ofList cs).utf8ByteSize,
    .advance .start before⟩

theorem tokensFrom_eq (h : Numeral cs d) (before : List Char) :
    tokensFrom before cs = [token before cs] := by
  have hs : Segment [] [] cs (if '.' ∈ cs then .float else .integer) :=
    .number ⟨h.ne_nil, h.mem, by simp, by simp⟩
  have ht : tokensFrom before (cs ++ []) = _ := tokensFrom_segment hs
  rw [List.append_nil] at ht
  rw [ht]
  rfl

theorem tokens_eq (h : Numeral cs d) :
    (Scan.ofString (String.ofList cs)).tokens = [token [] cs] := by
  show tokensFrom [] (String.ofList cs).toList = _
  rw [String.toList_ofList, h.tokensFrom_eq]

theorem tokens_minus (h : Numeral cs d) :
    (Scan.ofString ("-" ++ String.ofList cs)).tokens =
      [⟨.minus, "-", 1, .start⟩, token ['-'] cs] := by
  have hs : Segment [] cs ['-'] .minus := .symbol (by decide)
  have ht : tokensFrom [] (['-'] ++ cs) = _ := tokensFrom_segment hs
  have hl : ("-" ++ String.ofList cs).toList = ['-'] ++ cs := by
    rw [String.toList_append, String.toList_ofList, String.toList_ofList]
  show tokensFrom [] ("-" ++ String.ofList cs).toList = _
  rw [hl, ht, h.tokensFrom_eq]
  rfl

theorem kind_token (before cs : List Char) :
    (token before cs).kind = .integer ∨ (token before cs).kind = .float := by
  unfold token
  split <;> simp

theorem literal_token (h : Numeral cs d) (before : List Char) :
    (token before cs).literal =
      .ok ⟨ofRank false d.rank, if '.' ∈ cs then .float else .integer⟩ := by
  rw [Token.literal, token, h.read_eq]
  by_cases hp : '.' ∈ cs
  · simp only [if_pos hp, Value.float]
    rfl
  · simp only [if_neg hp, Value.integer]
    rfl

variable (s : Symbols)

theorem eval_token (h : Numeral cs d) (before : List Char) :
    s.eval (.leaf (token before cs)) =
      .ok ⟨ofRank false d.rank, if '.' ∈ cs then .float else .integer⟩ := by
  rw [Symbols.eval, Symbols.alone, ← h.literal_token before]
  rcases kind_token before cs with hk | hk <;> rw [hk]

theorem evaluate_eq (h : Numeral cs d) :
    evaluate .default s (String.ofList cs) =
      .ok ⟨ofRank false d.rank, if '.' ∈ cs then .float else .integer⟩ := by
  have hp := parse_number (kind_token [] cs) (Scan.ofString (String.ofList cs)).stop
  rw [← h.tokens_eq] at hp
  have hp : parse .default (.ofString (String.ofList cs)) = _ := hp
  simp only [evaluate, hp, h.eval_token s]

theorem evaluate_minus (h : Numeral cs d) :
    evaluate .default s ("-" ++ String.ofList cs) = .ok (.computed (-ofRank false d.rank)) := by
  have hp := parse_minus_number (m := ⟨.minus, "-", 1, .start⟩) rfl (kind_token ['-'] cs)
    (Scan.ofString ("-" ++ String.ofList cs)).stop
  rw [← h.tokens_minus] at hp
  have hp : parse .default (.ofString ("-" ++ String.ofList cs)) = _ := hp
  have he : s.eval (.unary ⟨.minus, "-", 1, .start⟩ (.leaf (token ['-'] cs))) = _ :=
    eval_minus s rfl _
  rw [h.eval_token s] at he
  simp only [evaluate, hp, he]
  rfl

end Numeral

section Written

variable {width n : Nat} {d : Decimal}

theorem digits_toDigits (n : Nat) : ∀ c ∈ Nat.toDigits 10 n, c.isDigit = true :=
  fun _ hc => Nat.isDigit_of_mem_toDigits (by decide) (by decide) hc

namespace Decimal

theorem digits_padded (width n : Nat) : ∀ c ∈ padded width n, c.isDigit = true := by
  intro c hc
  rcases List.mem_append.1 hc with hc | hc
  · rw [List.eq_of_mem_replicate hc]
    rfl
  · exact digits_toDigits n c hc

theorem length_padded (hw : 0 < width) (hn : n < 10 ^ width) : (padded width n).length = width := by
  have hl := (Nat.length_toDigits_le_iff (b := 10) (by decide) hw).2 hn
  rw [padded, List.length_append, List.length_replicate, Nat.sub_add_cancel hl]

theorem ofDigitChars_padded (width n : Nat) : Nat.ofDigitChars 10 (padded width n) 0 = n := by
  rw [padded, Nat.ofDigitChars_append, Nat.ofDigitChars_replicate_zero, Nat.mul_zero,
    Nat.ofDigitChars_ten_toDigits]

end Decimal

theorem numeral_write_whole (m n : Nat) :
    Numeral (Decimal.write ⟨m, .ofNat n⟩) ⟨m * 10 ^ n, 0⟩ := by
  have h : Numeral (Nat.toDigits 10 (m * 10 ^ n)) _ :=
    .whole Nat.toDigits_ne_nil (digits_toDigits _)
  rwa [Nat.ofDigitChars_ten_toDigits, ← Nat.pow_eq] at h

theorem numeral_write_fraction (m n : Nat) :
    Numeral (Decimal.write ⟨m, .negSucc n⟩) ⟨m, .negSucc n⟩ := by
  have hl := Decimal.length_padded n.succ_pos (Nat.mod_lt m (Nat.pow_pos (by decide)))
  have h : Numeral (Nat.toDigits 10 (m / 10 ^ (n + 1)) ++
      '.' :: Decimal.padded (n + 1) (m % 10 ^ (n + 1))) _ :=
    .point Nat.toDigits_ne_nil (digits_toDigits _) (Decimal.digits_padded _ _)
  rwa [Nat.ofDigitChars_append, Nat.ofDigitChars_ten_toDigits,
    Nat.ofDigitChars_eq_ofDigitChars_zero, Decimal.ofDigitChars_padded, hl, Nat.div_add_mod] at h

theorem exists_numeral_write (h : d.rank < infinity) :
    ∃ d', Numeral d.write d' ∧ d'.rank = d.rank := by
  obtain ⟨m, e⟩ := d
  cases e with
  | ofNat n => exact ⟨_, numeral_write_whole m n, Decimal.rank_ofNat h⟩
  | negSucc n => exact ⟨_, numeral_write_fraction m n, rfl⟩

/-- The digits that are written for a finite double spell a decimal that is rounded to it. -/
theorem exists_numeral_writeRank {r : Nat} (h : r < infinity) :
    ∃ cs d, Value.writeRank r = String.ofList cs ∧ Numeral cs d ∧ d.rank = r := by
  rw [Value.writeRank, if_pos h]
  by_cases h0 : r = 0
  · refine ⟨_, _, if_pos h0, .whole (List.cons_ne_nil '0' []) (List.forall_mem_singleton.2 rfl), ?_⟩
    rw [h0]
    rfl
  · have hr := Decimal.rank_shortest h
    obtain ⟨d, hd, he⟩ := exists_numeral_write (hr.trans_lt h)
    exact ⟨_, d, if_neg h0, hd, he.trans hr⟩

end Written

end Reckon
