import Reckon.Proofs.Histories
import Reckon.Proofs.Nearest
import Reckon.Proofs.Numerals

namespace Reckon

open Binary64

namespace Literal

/-- No digit, or more than one dot. -/
def Malformed (cs : List Char) : Prop := (∀ c ∈ cs, c.isDigit = false) ∨ 1 < cs.count '.'

def part (cs : List Char) : List Char := (cs.dropWhile (· ≠ '.')).tail

/-- The number that is written with digits and a dot, or without one. -/
def number (cs : List Char) : ℚ :=
  Nat.ofDigitChars 10 (cs.takeWhile (· ≠ '.')) 0 +
    Nat.ofDigitChars 10 (part cs) 0 / 10 ^ (part cs).length

variable {cs ds es : List Char} {c : Char} {d : Decimal}

theorem digits_or_dot (h : ∀ c ∈ cs, isNumeral c = true) :
    (∀ c ∈ cs, c.isDigit = true) ∨
      ∃ ds es, cs = ds ++ '.' :: es ∧ (∀ c ∈ ds, c.isDigit = true) ∧
        ∀ c ∈ es, isNumeral c = true := by
  by_cases hp : '.' ∈ cs
  · obtain ⟨ds, es, rfl, hds⟩ := List.eq_append_cons_of_mem hp
    refine .inr ⟨ds, es, rfl, fun c hc => ?_, fun c hc => h c (by simp [hc])⟩
    exact digit_of_numeral (h c (by simp [hc])) fun he => hds (he ▸ hc)
  · exact .inl fun c hc => digit_of_numeral (h c hc) fun he => hp (he ▸ hc)

section Digits

theorem ne_dot_of_digits (h : ∀ c ∈ ds, c.isDigit = true) : ∀ c ∈ ds, decide (c ≠ '.') = true :=
  fun c hc => decide_eq_true (ne_dot_of_digit (h c hc))

theorem count_dot (h : ∀ c ∈ ds, c.isDigit = true) : ds.count '.' = 0 :=
  List.count_eq_zero.2 fun hp => ne_dot_of_digit (h _ hp) rfl

theorem number_digits (h : ∀ c ∈ ds, c.isDigit = true) : number ds = Nat.ofDigitChars 10 ds 0 := by
  have hd := ne_dot_of_digits h
  have hp : part ds = [] := by rw [part, List.dropWhile_eq_nil_iff.2 hd, List.tail_nil]
  rw [number, hp, List.takeWhile_eq_self_iff.2 hd]
  simp

theorem number_point (h : ∀ c ∈ ds, c.isDigit = true) (es : List Char) :
    number (ds ++ '.' :: es) =
      Nat.ofDigitChars 10 ds 0 + Nat.ofDigitChars 10 es 0 / 10 ^ es.length := by
  have hd := ne_dot_of_digits h
  have hp : part (ds ++ '.' :: es) = es := by
    rw [part, List.dropWhile_append_of_pos hd, List.dropWhile_cons_of_neg (by simp), List.tail_cons]
  rw [number, hp, List.takeWhile_append_of_pos hd, List.takeWhile_cons_of_neg (by simp),
    List.append_nil]

example : number ['0', '7', '.', '5'] = 15 / 2 := by decide +kernel

theorem malformed_digits (h : ∀ c ∈ ds, c.isDigit = true) : Malformed ds ↔ ds = [] := by
  rw [Malformed, count_dot h]
  constructor
  · rintro (hn | hn)
    · refine List.eq_nil_iff_forall_not_mem.2 fun c hc => ?_
      cases (h c hc).symm.trans (hn c hc)
    · cases hn
  · rintro rfl
    exact .inl (List.forall_mem_nil _)

theorem malformed_point (hd : ∀ c ∈ ds, c.isDigit = true) :
    Malformed (ds ++ '.' :: es) ↔ (ds = [] ∧ ∀ c ∈ es, c.isDigit = false) ∨ '.' ∈ es := by
  rw [Malformed, List.count_append, count_dot hd, List.count_cons_self, ← List.count_pos_iff]
  refine or_congr ⟨fun h => ⟨?_, fun c hc => h c (by simp [hc])⟩, ?_⟩ (by omega)
  · refine List.eq_nil_iff_forall_not_mem.2 fun c hc => ?_
    cases (hd c hc).symm.trans (h c (by simp [hc]))
  · rintro ⟨rfl, h⟩
    exact List.forall_mem_cons.2 ⟨rfl, h⟩

theorem not_malformed (hne : ds ≠ []) (hd : ∀ c ∈ ds, c.isDigit = true)
    (h : cs ∈ [ds, ds ++ ['.'], '.' :: ds]) : ¬Malformed cs := by
  simp only [List.mem_cons, List.not_mem_nil, or_false] at h
  rcases h with rfl | rfl | rfl
  · exact fun hm => hne ((malformed_digits hd).1 hm)
  · intro hm
    obtain ⟨he, -⟩ | hp := (malformed_point hd).1 hm
    · exact hne he
    · cases hp
  · intro hm
    have hm : Malformed ([] ++ '.' :: ds) := hm
    obtain ⟨-, hn⟩ | hp := (malformed_point (List.forall_mem_nil _)).1 hm
    · obtain ⟨c, hc⟩ := List.exists_mem_of_ne_nil ds hne
      cases (hd c hc).symm.trans (hn c hc)
    · exact ne_dot_of_digit (hd _ hp) rfl

theorem exponent_dot (cs : List Char) : exponent? ('.' :: cs) = none := by
  rw [exponent?]
  exact if_neg fun h => by rcases h.1 with h | h <;> cases h

theorem decimal_dots (hd : ∀ c ∈ ds, c.isDigit = true) (he : ∀ c ∈ es, isNumeral c = true)
    (hp : '.' ∈ es) : decimal? (ds ++ '.' :: es) = none := by
  obtain h | ⟨es, fs, rfl, hes, -⟩ := digits_or_dot he
  · exact absurd rfl (ne_dot_of_digit (h _ hp))
  · rw [decimal_eq_point hd, List.dropWhile_append_of_pos hes,
      List.dropWhile_cons_of_neg (by decide), exponent_dot, Option.map_none, ite_self]

theorem value_point (ds es : List Char) :
    Decimal.value ⟨Nat.ofDigitChars 10 (ds ++ es) 0, -es.length⟩ =
      Nat.ofDigitChars 10 ds 0 + Nat.ofDigitChars 10 es 0 / 10 ^ es.length := by
  have hp : (10 : ℚ) ^ es.length ≠ 0 := by positivity
  rw [Decimal.value, zpow_neg, zpow_natCast, ← div_eq_mul_inv, Nat.ofDigitChars_append,
    Nat.ofDigitChars_eq_ofDigitChars_zero]
  push_cast
  rw [add_div, mul_div_cancel_left₀ _ hp]

end Digits

theorem decimal_of_numerals (h : ∀ c ∈ cs, isNumeral c = true) :
    (Malformed cs ∧ decimal? cs = none) ∨
      (¬Malformed cs ∧ ∃ d, decimal? cs = some d ∧ d.value = number cs) := by
  obtain hd | ⟨ds, es, rfl, hd, he⟩ := digits_or_dot h
  · rw [malformed_digits hd]
    by_cases hne : cs = []
    · rw [hne]
      exact .inl ⟨rfl, rfl⟩
    · refine .inr ⟨hne, _, (Numeral.whole hne hd).decimal_eq, ?_⟩
      rw [number_digits hd, Decimal.value, zpow_zero, mul_one]
  · rw [malformed_point hd]
    by_cases hp : '.' ∈ es
    · exact .inl ⟨.inr hp, decimal_dots hd he hp⟩
    · have he : ∀ c ∈ es, c.isDigit = true := fun c hc =>
        digit_of_numeral (he c hc) fun h => hp (h ▸ hc)
      by_cases hne : ds ++ es = []
      · obtain ⟨rfl, rfl⟩ := List.append_eq_nil_iff.1 hne
        exact .inl ⟨.inl ⟨rfl, List.forall_mem_nil _⟩, rfl⟩
      · refine .inr ⟨?_, _, decimal_point hd he hne, ?_⟩
        · rintro (⟨rfl, hn⟩ | hp')
          · obtain ⟨c, hc⟩ := List.exists_mem_of_ne_nil es hne
            cases (he c hc).symm.trans (hn c hc)
          · exact hp hp'
        · rw [value_point, number_point hd]

theorem toLower_of_numeral (h : isNumeral c = true) : c.toLower = c := by
  refine Char.toLower_eq_of_not_isUpper fun hu => ?_
  obtain ⟨hu, -⟩ := of_decide_eq_true hu
  rw [isNumeral, Bool.or_eq_true, beq_iff_eq, Char.isDigit, Bool.and_eq_true] at h
  rcases h with ⟨-, hd⟩ | rfl
  · exact absurd (UInt32.le_trans hu (of_decide_eq_true hd)) (by decide)
  · exact absurd hu (by decide)

theorem named_of_numerals (h : ∀ c ∈ cs, isNumeral c = true) : named? cs = none := by
  have hl : cs.map Char.toLower = cs :=
    (List.map_congr_left fun c hc => toLower_of_numeral (h c hc)).trans (List.map_id cs)
  have hne (name : String) (letter : ∃ c ∈ name.toList, isNumeral c = false) :
      String.ofList cs ≠ name := by
    rintro rfl
    obtain ⟨c, hc, hn⟩ := letter
    rw [String.toList_ofList] at hc
    cases (h c hc).symm.trans hn
  simp only [named?, hl]
  rw [if_neg, if_neg]
  · exact hne "nan" ⟨'n', by decide, by decide⟩
  · rintro (hi | hi)
    · exact hne "inf" ⟨'i', by decide, by decide⟩ hi
    · exact hne "infinity" ⟨'i', by decide, by decide⟩ hi

theorem read_of_numerals {text : String} (h : ∀ c ∈ text.toList, isNumeral c = true) :
    read? text = (decimal? text.toList).map fun d => ofRank false d.rank := by
  rw [read?, sign_of_numerals h]
  simp only [named_of_numerals h, Option.or_none, Option.map_map]
  rfl

end Literal

section Tokens

variable {text : String} {t : Token}

theorem literal_of_number (h : t ∈ (Scan.ofString text).tokens)
    (hk : t.kind = .integer ∨ t.kind = .float) :
    (Literal.Malformed t.lexeme.toList ∧
        t.literal = .error ⟨.invalidLiteral t.lexeme, t.position⟩) ∨
      (¬Literal.Malformed t.lexeme.toList ∧
        ∃ x, t.literal = .ok ⟨x, if '.' ∈ t.lexeme.toList then .float else .integer⟩ ∧
          RoundsTo (Literal.number t.lexeme.toList) x) := by
  obtain ⟨⟨-, hn⟩, ht⟩ := numerals_of_number h hk
  rw [Token.literal, Literal.read_of_numerals hn, ht]
  obtain ⟨hm, hd⟩ | ⟨hm, d, hd, hv⟩ := Literal.decimal_of_numerals hn
  · rw [hd]
    exact .inl ⟨hm, rfl⟩
  · rw [hd, ← hv]
    refine .inr ⟨hm, _, ?_, Decimal.roundsTo_rank d⟩
    by_cases hp : '.' ∈ t.lexeme.toList
    · simp only [if_pos hp]
      rfl
    · simp only [if_neg hp]
      rfl

theorem mem_tokens_of_shown {calls : List Call} {a : Answer}
    (ha : a ∈ ((Stream.ofString text).run calls).1) (ht : t ∈ a.token?)
    (hk : t.kind ≠ .endOfInput) : t ∈ (Scan.ofString text).tokens := by
  have hc := (Cursor.logged_ofString text).run calls
  rw [((Stream.shows_ofString text).run calls).1] at ha
  have hm := hc.shown a ha t ht
  rw [Scan.toList, List.mem_append, List.mem_singleton] at hm
  refine hm.resolve_right ?_
  rintro rfl
  exact hk rfl

/-- Of the numbers that a stream hands out those without a digit or with more than one dot are
rejected. Any other is the one double that the number written is rounded to, and counts as an
integer if it has no dot. So no integer is rejected, nor are digits with a dot at either end. -/
theorem number_literals_are_rounded {calls : List Call} {a : Answer}
    (ha : a ∈ ((Stream.ofString text).run calls).1) (ht : t ∈ a.token?)
    (hk : t.kind = .integer ∨ t.kind = .float) :
    (t.literal = .error ⟨.invalidLiteral t.lexeme, t.position⟩ ↔
        Literal.Malformed t.lexeme.toList) ∧
      (¬Literal.Malformed t.lexeme.toList →
        ∃ x, t.literal = .ok ⟨x, if '.' ∈ t.lexeme.toList then .float else .integer⟩ ∧
          (0.0 : Float) ≤ x ∧ x.isNaN = false ∧
          ∀ y, RoundsTo (Literal.number t.lexeme.toList) y ↔ y = x) ∧
      (t.kind = .integer → ∃ v, t.literal = .ok v) ∧
      ∀ ds : List Char, ds ≠ [] → (∀ c ∈ ds, c.isDigit = true) →
        t.lexeme.toList ∈ [ds, ds ++ ['.'], '.' :: ds] → ∃ v, t.literal = .ok v := by
  have hm : t ∈ (Scan.ofString text).tokens :=
    mem_tokens_of_shown ha ht (by rcases hk with hk | hk <;> rw [hk] <;> decide)
  have hok : ¬Literal.Malformed t.lexeme.toList → ∃ v, t.literal = .ok v := by
    intro hb
    obtain ⟨hb', -⟩ | ⟨-, x, hl, -⟩ := literal_of_number hm hk
    · exact absurd hb' hb
    · exact ⟨_, hl⟩
  refine ⟨?_, ?_, fun hi => hok ?_, fun ds hne hd hl => hok (Literal.not_malformed hne hd hl)⟩
  · obtain ⟨hb, hl⟩ | ⟨hb, x, hl, -⟩ := literal_of_number hm hk
    · exact iff_of_true hl hb
    · rw [hl]
      exact iff_of_false nofun hb
  · intro hb
    obtain ⟨hb', -⟩ | ⟨-, x, hl, hx⟩ := literal_of_number hm hk
    · exact absurd hb' hb
    · refine ⟨x, hl, hx.toUnsigned.zero_le, hx.number, fun y => ⟨fun hy => hy.eq hx, ?_⟩⟩
      rintro rfl
      exact hx
  · obtain ⟨hne, hd⟩ := digits_of_integer hm hi
    exact Literal.not_malformed hne hd (List.mem_cons_self ..)

theorem point_before_digits_is_read :
    .taken ⟨.float, ".025", 4, ⟨2, 1, 3⟩⟩ ∈ ((Stream.ofString "x .025").run [.next, .next]).1 ∧
      ∃ v, Token.literal ⟨.float, ".025", 4, ⟨2, 1, 3⟩⟩ = .ok v := by
  have h : Answer.taken ⟨.float, ".025", 4, ⟨2, 1, 3⟩⟩ ∈
      ((Stream.ofString "x .025").run [.next, .next]).1 := by
    rw [((Stream.shows_ofString _).run _).1]
    decide +kernel
  obtain ⟨-, -, -, hd⟩ := number_literals_are_rounded h rfl (.inr rfl)
  refine ⟨h, hd ['0', '2', '5'] (List.cons_ne_nil _ _) ?_ ?_⟩
  · exact List.all_eq_true.1 rfl
  · exact .tail _ (.tail _ (.head _))

end Tokens

end Reckon
