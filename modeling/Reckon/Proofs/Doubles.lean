import Mathlib
import Reckon.Number.Binary64

namespace Reckon.Binary64

open Float.Model Float.Model.UnpackedFloat

section Fields

theorem shiftLeft_or {x y k : Nat} (h : y < 2 ^ k) : x <<< k ||| y = x * 2 ^ k + y := by
  rw [← Nat.shiftLeft_add_eq_or_of_lt h, Nat.shiftLeft_eq]

variable (b : BitVec (Format.numBits .binary64))

theorem toNat_unpackMantissa : (unpackMantissa b).toNat = b.toNat % 2 ^ 63 % 2 ^ 52 := by
  simp only [unpackMantissa]
  rw [BitVec.toNat_cast, BitVec.extractLsb_toNat]
  simp

theorem toNat_unpackExponent : (unpackExponent b).toNat = b.toNat % 2 ^ 63 / 2 ^ 52 := by
  simp only [unpackExponent]
  rw [BitVec.toNat_cast, BitVec.extractLsb_toNat]
  simp [Nat.shiftRight_eq_div_pow]
  omega

theorem toNat_packComponents (s : Sign) (e : BitVec 11) (m : BitVec 52) :
    (packComponents .binary64 s e m).toNat =
      s.toBitVec.toNat * 2 ^ 63 + (e.toNat * 2 ^ 52 + m.toNat) := by
  have he : e.toNat < 2 ^ 11 := e.isLt
  have hm : m.toNat < 2 ^ 52 := m.isLt
  rw [packComponents, BitVec.toNat_append, BitVec.toNat_append, shiftLeft_or hm, shiftLeft_or he]
  ring

theorem lt_of_isNaNBits (h : isNaNBits b = true) : infinity < b.toNat % 2 ^ 63 := by
  have hm := toNat_unpackMantissa b
  have he := toNat_unpackExponent b
  have hi : infinity = 2047 * 2 ^ 52 := rfl
  obtain ⟨h1, h0⟩ := of_decide_eq_true h
  have hlast : (unpackExponent b).toNat = 2047 := congrArg BitVec.toNat h1
  have hne : (unpackMantissa b).toNat ≠ 0 := fun hz => h0 (BitVec.eq_of_toNat_eq hz)
  omega

end Fields

/-- What the bits of a rank are taken apart into. A finite double is a mantissa in units of its
octave. The mantissas of the first octave start at one, and those of the others at `2 ^ 52`. -/
inductive Shape (s : Sign) : Nat → UnpackedFloat → Prop
  | zero : Shape s 0 (.zero s)
  | finite {octave m : Nat} {e : Int} (pos : 0 < m) (lt : m < 2 ^ 53)
      (full : octave = 0 ∨ 2 ^ 52 ≤ m) (last : octave < 2046) (he : e = octave - 1074) :
      Shape s (octave * 2 ^ 52 + m) (.finite s m e pos)
  | infinity : Shape s infinity (.infinity s)
  | notANumber {r} (h : infinity < r) : Shape s r .notANumber

theorem shape_unpack (b : BitVec (Format.numBits .binary64)) :
    Shape (.ofBitVec (unpackSign b)) (b.toNat % 2 ^ 63) (UnpackedFloat.unpack .binary64 b) := by
  have hm := toNat_unpackMantissa b
  have he := toNat_unpackExponent b
  have hr : b.toNat % 2 ^ 63 < 2 ^ 63 := Nat.mod_lt _ (by decide)
  have hi : infinity = 2047 * 2 ^ 52 := rfl
  have hb : Format.exponentBias .binary64 = 1023 := rfl
  have hw : Format.mantissaBitsWithoutImplicit .binary64 = 52 := rfl
  generalize b.toNat % 2 ^ 63 = r at hm he hr
  have hlast : unpackExponent b = -1#_ ↔ r / 2 ^ 52 = 2047 := by
    rw [← BitVec.toNat_inj, he]
    rfl
  have hfirst : unpackExponent b = 0#_ ↔ r / 2 ^ 52 = 0 := by
    rw [← BitVec.toNat_inj, he]
    rfl
  have hwhole : unpackMantissa b = 0#_ ↔ r % 2 ^ 52 = 0 := by
    rw [← BitVec.toNat_inj, hm]
    rfl
  rw [UnpackedFloat.unpack]
  split
  case isTrue h =>
    rw [hlast] at h
    split
    case isTrue h0 =>
      rw [hwhole] at h0
      obtain rfl : r = infinity := by omega
      exact .infinity
    case isFalse h0 =>
      rw [hwhole] at h0
      exact .notANumber (by omega)
  case isFalse h =>
    rw [hlast] at h
    split
    case isTrue h1 =>
      rw [hfirst] at h1
      split
      case isTrue h0 =>
        rw [hwhole] at h0
        obtain rfl : r = 0 := by omega
        exact .zero
      case isFalse h0 =>
        rw [hwhole] at h0
        have hr : r = 0 * 2 ^ 52 + (unpackMantissa b).toNat := by omega
        rw [hr]
        exact .finite _ (by omega) (.inl rfl) (by decide) (by omega)
    case isFalse h1 =>
      rw [hfirst] at h1
      have hm1 : (1#1 ++ unpackMantissa b).toNat = 2 ^ 52 + (unpackMantissa b).toNat := by
        rw [BitVec.toNat_append, shiftLeft_or (unpackMantissa b).isLt]
        rfl
      have hr : r = (r / 2 ^ 52 - 1) * 2 ^ 52 + (1#1 ++ unpackMantissa b).toNat := by omega
      rw [hr]
      exact .finite _ (by omega) (.inr (by omega)) (by omega) (by omega)

theorem pack_unpack_self {b : BitVec (Format.numBits .binary64)} (h : b.toNat % 2 ^ 63 ≤ infinity) :
    UnpackedFloat.pack .binary64 (UnpackedFloat.unpack .binary64 b) = b := by
  rw [pack_unpack b (by decide), if_neg]
  exact fun hn => absurd (lt_of_isNaNBits b hn) (Nat.not_lt.2 h)

theorem toBits_ofBits {b : UInt64} (h : b.toNat % 2 ^ 63 ≤ infinity) :
    (Float.ofBits b).toBits = b :=
  UInt64.toBitVec_inj.1 (pack_unpack_self h)

theorem units_octave {octave m : Nat} (le : m ≤ 2 ^ 53) (full : octave = 0 ∨ 2 ^ 52 ≤ m) :
    units (octave * 2 ^ 52 + m) = m * 2 ^ octave := by
  have hp : Nat.pow 2 52 = 2 ^ 52 := rfl
  rw [units, hp]
  by_cases hf : octave * 2 ^ 52 + m < 2 ^ 52
  · have h0 : octave = 0 := by omega
    rw [if_pos hf, h0, Nat.zero_mul, Nat.zero_add, Nat.pow_zero, Nat.mul_one]
  · rw [if_neg hf]
    show (2 ^ 52 + _) * 2 ^ (_ - 1) = _
    rcases Nat.lt_or_eq_of_le le with lt | rfl
    · have hm : 2 ^ 52 + (octave * 2 ^ 52 + m) % 2 ^ 52 = m := by omega
      have ho : (octave * 2 ^ 52 + m) / 2 ^ 52 - 1 = octave := by omega
      rw [hm, ho]
    · have hm : 2 ^ 52 + (octave * 2 ^ 52 + 2 ^ 53) % 2 ^ 52 = 2 ^ 52 := by omega
      have ho : (octave * 2 ^ 52 + 2 ^ 53) / 2 ^ 52 - 1 = octave + 1 := by omega
      rw [hm, ho]
      ring

theorem exists_mantissa (r : Nat) :
    ∃ octave m, r = octave * 2 ^ 52 + m ∧ m < 2 ^ 53 ∧ (octave = 0 ∨ 2 ^ 52 ≤ m) := by
  by_cases h : r < 2 ^ 53
  · exact ⟨0, r, by omega, h, .inl rfl⟩
  · exact ⟨r / 2 ^ 52 - 1, 2 ^ 52 + r % 2 ^ 52, by omega, by omega, .inr (by omega)⟩

theorem exists_octave {r : Nat} (h : r < infinity) :
    ∃ octave m, r = octave * 2 ^ 52 + m ∧ m < 2 ^ 53 ∧ (octave = 0 ∨ 2 ^ 52 ≤ m) ∧
      octave < 2046 := by
  have hi : infinity = 2047 * 2 ^ 52 := rfl
  obtain ⟨octave, m, rfl, hm, full⟩ := exists_mantissa r
  exact ⟨octave, m, rfl, hm, full, by omega⟩

def numberOf? : UnpackedFloat → Option ℚ
  | .infinity _ | .notANumber => none
  | .zero _ => some 0
  | .finite s m e _ => some (s.apply m * 2 ^ e)

/-- The number that a double stands for, if it is finite. -/
def value? (x : Float) : Option ℚ := numberOf? x.toModel.unpack

def IsWhole (x : Float) : Prop := ∃ n : ℤ, value? x = some (n : ℚ)

theorem exists_shape (x : Float) : ∃ s, Shape s (rank x) x.toModel.unpack :=
  ⟨_, shape_unpack x.toBits.toBitVec⟩

theorem cast_pow_two (n : Nat) : (Nat.pow 2 n : ℚ) = 2 ^ n := by
  rw [Nat.pow_eq, Nat.cast_pow, Nat.cast_two]

theorem cast_unitsPerOne : (unitsPerOne : ℚ) = 2 ^ 1074 := by
  unfold unitsPerOne
  apply cast_pow_two

/-- A finite double stands for the units of its rank, of `2 ^ -1074` each, with the sign. -/
theorem Shape.numberOf_eq {s : Sign} {r : Nat} {u : UnpackedFloat} (h : Shape s r u) :
    numberOf? u = if r < Binary64.infinity then some ((s.apply (units r) : ℤ) / unitsPerOne : ℚ)
      else none := by
  cases h with
  | zero =>
      have hz : s.apply (units 0) = 0 := by
        cases s <;> rfl
      rw [if_pos (by decide), hz, Int.cast_zero, zero_div]
      rfl
  | infinity =>
      rw [if_neg (Nat.lt_irrefl _)]
      rfl
  | notANumber h =>
      rw [if_neg (Nat.not_lt_of_lt h)]
      rfl
  | @finite octave m e pos lt full last he =>
      have hi : Binary64.infinity = 2047 * 2 ^ 52 := rfl
      have hs : (s.apply ((m * 2 ^ octave : ℕ) : ℤ) : ℚ) = s.apply m * 2 ^ octave := by
        cases s <;> simp [Sign.apply]
      rw [if_pos (by omega), units_octave lt.le full, numberOf?, cast_unitsPerOne, hs, he,
        zpow_sub₀ two_ne_zero, zpow_natCast, mul_div_assoc]
      rfl

theorem isWhole_iff (x : Float) : IsWhole x ↔ rank x < infinity ∧ unitsPerOne ∣ units (rank x) := by
  obtain ⟨s, h⟩ := exists_shape x
  have hu : (unitsPerOne : ℚ) ≠ 0 := by
    rw [cast_unitsPerOne]
    exact pow_ne_zero _ two_ne_zero
  rw [IsWhole, value?, h.numberOf_eq]
  by_cases hr : rank x < infinity
  · have hd : unitsPerOne ∣ units (rank x) ↔ (unitsPerOne : ℤ) ∣ s.apply (units (rank x)) := by
      cases s with
      | positive => exact Int.natCast_dvd_natCast.symm
      | negative => rw [Sign.apply, Int.dvd_neg]; exact Int.natCast_dvd_natCast.symm
    rw [if_pos hr, hd]
    refine ⟨fun ⟨n, hn⟩ => ⟨hr, n, ?_⟩, fun ⟨_, n, hn⟩ => ⟨n, ?_⟩⟩
    · have hq := Option.some.inj hn
      rw [div_eq_iff hu] at hq
      rw [mul_comm]
      exact_mod_cast hq
    · rw [hn, Int.cast_mul, Int.cast_natCast, mul_div_cancel_left₀ _ hu]
  · rw [if_neg hr]
    constructor
    · rintro ⟨_, h⟩
      cases h
    · exact fun h => absurd h.1 hr

theorem toNat_toBits_ofRank {r : Nat} (negative : Bool) (h : r ≤ infinity) :
    (ofRank negative r).toBits.toNat = if negative then 2 ^ 63 + r else r := by
  have hi : infinity < 2 ^ 63 := by decide
  have hp : Nat.pow 2 63 = 2 ^ 63 := rfl
  have hz : UInt64.size = 2 ^ 64 := rfl
  have hb : (UInt64.ofNat (if negative then 2 ^ 63 + r else r)).toNat =
      if negative then 2 ^ 63 + r else r := by
    refine UInt64.toNat_ofNat_of_lt' ?_
    cases negative <;> simp <;> omega
  have hm : (if negative then 2 ^ 63 + r else r) % 2 ^ 63 = r := by
    cases negative <;> simp <;> omega
  rw [ofRank, hp, toBits_ofBits (by rw [hb, hm]; exact h), hb]

theorem rank_ofRank {r : Nat} (negative : Bool) (h : r ≤ infinity) :
    rank (ofRank negative r) = r := by
  have hi : infinity < 2 ^ 63 := by decide
  have hp : Nat.pow 2 63 = 2 ^ 63 := rfl
  rw [rank, toNat_toBits_ofRank negative h, hp]
  cases negative <;> simp <;> omega

theorem ofRank_rank {x : Float} (h : rank x ≤ infinity) : ofRank (isNegative x) (rank x) = x := by
  have hx : x.toBits.toNat < 2 ^ 64 := x.toBits.toNat_lt
  have hp : Nat.pow 2 63 = 2 ^ 63 := rfl
  have hb : (if isNegative x then 2 ^ 63 + rank x else rank x) = x.toBits.toNat := by
    simp only [isNegative, rank, hp, decide_eq_true_eq]
    split <;> omega
  rw [ofRank, hp, hb, UInt64.ofNat_toNat]
  exact Float.toBits_inj.1 (toBits_ofBits h)

end Reckon.Binary64
