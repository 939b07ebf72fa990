import Reckon.Proofs.Rounding
import Reckon.Value

namespace Reckon.Binary64

open Float.Model Float.Model.UnpackedFloat

section Round

variable {m : Nat} {e : Int}

theorem mantissa_shiftRight (em : ExtendedMantissa) (k : Nat) :
    (em >>> k).mantissa = em.mantissa / 2 ^ k := by
  show (k.repeat ExtendedMantissa.shiftRightOne em).mantissa = _
  induction k with
  | zero => exact (Nat.div_one _).symm
  | succ k ih =>
      rw [Nat.repeat, ExtendedMantissa.shiftRightOne, ih, Nat.pow_succ, Nat.div_div_eq_div_mul]

theorem le_roundedMantissa (em : ExtendedMantissa) : em.mantissa ≤ em.roundedMantissa := by
  rcases em with ⟨m, r, s⟩
  cases r <;> cases s <;>
    simp [ExtendedMantissa.roundedMantissa, ExtendedMantissa.accuracy, Accuracy.roundToNearestEven]

theorem toNat_targetExponent_sub (he : -1074 ≤ e) :
    (Format.targetExponent .binary64 (totalExponent m e) - e).toNat = m.log2 - 52 := by
  have hb : Format.mantissaBits .binary64 = 53 := rfl
  have hl : Format.minExponent .binary64 = -1074 := rfl
  rw [Format.targetExponent, totalExponent, hb, hl]
  omega

theorem shiftToTargetExponent_bounds (hm : 0 < m) (he : -1074 ≤ e) :
    0 < (shiftToTargetExponent .binary64 m e .exact).1.mantissa ∧
      (shiftToTargetExponent .binary64 m e .exact).1.mantissa < 2 ^ 53 ∧
      -1074 ≤ (shiftToTargetExponent .binary64 m e .exact).2 := by
  have hx : (ExtendedMantissa.ofMantissaAndAccuracy m .exact).mantissa = m := rfl
  simp only [shiftToTargetExponent, shiftToExponent, mantissa_shiftRight,
    toNat_targetExponent_sub he, hx]
  refine ⟨?_, ?_, by omega⟩
  · refine Nat.div_pos ?_ (Nat.two_pow_pos _)
    exact (Nat.pow_le_pow_right Nat.two_pos (Nat.sub_le _ _)).trans (Nat.log2_self_le hm.ne')
  · rw [Nat.div_lt_iff_lt_mul (Nat.two_pow_pos _), ← Nat.pow_add]
    exact Nat.lt_log2_self.trans_le (Nat.pow_le_pow_right Nat.two_pos (by omega))

/-- A finite double that is taken apart, if it is not too large. -/
def InRange : UnpackedFloat → Prop
  | .finite _ m e _ => m < 2 ^ 53 ∧ -1074 ≤ e
  | _ => False

theorem inRange_roundWithAccuracy (s : Sign) (hm : 0 < m) (he : -1074 ≤ e) :
    InRange (roundWithAccuracy .binary64 s m e .exact) := by
  obtain ⟨hpos, -, he'⟩ := shiftToTargetExponent_bounds hm he
  have hr := hpos.trans_le (le_roundedMantissa _)
  obtain ⟨hpos', hlt, he''⟩ := shiftToTargetExponent_bounds hr he'
  simp only [roundWithAccuracy]
  rw [dif_neg hpos'.ne']
  exact ⟨hlt, he''⟩

theorem inRange_round (s : Sign) (hm : 0 < m) (he : -1074 ≤ e) :
    InRange (UnpackedFloat.round .binary64 s m e) := by
  have hb : Format.mantissaBits .binary64 = 53 := rfl
  have hl : Format.minExponent .binary64 = -1074 := rfl
  refine inRange_roundWithAccuracy s ?_ ?_
  · rw [Nat.shiftLeft_eq]
    exact Nat.mul_pos hm (Nat.two_pow_pos _)
  · rw [Format.targetExponent, hb, hl]
    omega

theorem toNat_pack_ne_zero {u : UnpackedFloat} (h : InRange u) :
    (UnpackedFloat.pack .binary64 u).toNat % 2 ^ 63 ≠ 0 := by
  cases u with
  | infinity | notANumber | zero => exact h.elim
  | finite s m e hm =>
      obtain ⟨hlt, he⟩ := h
      have hx : (e + Format.exponentBias .binary64 +
          Format.mantissaBitsWithoutImplicit .binary64).toNat = (e + 1075).toNat := by
        have hb : Format.exponentBias .binary64 = 1023 := rfl
        have hw : Format.mantissaBitsWithoutImplicit .binary64 = 52 := rfl
        omega
      have hd : Format.mantissaBits .binary64 = 53 := rfl
      have hf : ∀ ex ma, ex.toNat * 2 ^ 52 + ma.toNat ≠ 0 →
          (packComponents .binary64 s ex ma).toNat % 2 ^ 63 ≠ 0 := by
        intro ex ma hne
        have hex : ex.toNat < 2 ^ 11 := ex.isLt
        have hma : ma.toNat < 2 ^ 52 := ma.isLt
        rw [toNat_packComponents]
        omega
      simp only [UnpackedFloat.pack]
      rw [hx, hd]
      split
      case isTrue => exact hf _ _ (by decide)
      case isFalse hlast =>
        have hlast : ¬2 ^ 11 ≤ (e + 1075).toNat + 1 := hlast
        split
        case isTrue =>
          have hex : (BitVec.ofNat 11 (e + 1075).toNat).toNat ≠ 0 := by
            rw [BitVec.toNat_ofNat]
            omega
          exact hf (BitVec.ofNat 11 (e + 1075).toNat) (BitVec.ofNat 52 m) (by omega)
        case isFalse hn =>
          have hl : m.log2 < 52 := by
            have := (Nat.log2_lt hm.ne').2 hlt
            omega
          have ho : (BitVec.ofNat 52 m).toNat = m := Nat.mod_eq_of_lt ((Nat.log2_lt hm.ne').1 hl)
          exact hf 0#11 (BitVec.ofNat 52 m) (by rw [ho]; omega)

theorem unpack_pack_ne_zero {u : UnpackedFloat} (h : InRange u) (s : Sign) :
    UnpackedFloat.unpack .binary64 (UnpackedFloat.pack .binary64 u) ≠ .zero s := by
  intro hz
  have hs := shape_unpack (UnpackedFloat.pack .binary64 u)
  have hr := toNat_pack_ne_zero h
  rw [hz] at hs
  generalize (UnpackedFloat.pack .binary64 u).toNat % 2 ^ 63 = r at hs hr
  cases hs
  exact hr rfl

theorem bne_zero_iff (x : Float) : (x != 0.0) = true ↔ ∀ s, x.toModel.unpack ≠ .zero s := by
  show (!(UnpackedFloat.compare x.toModel.unpack (.zero .positive) == some .eq)) = true ↔ _
  cases x.toModel.unpack with
  | zero s => simp [UnpackedFloat.compare]
  | infinity s => cases s <;> simp [UnpackedFloat.compare]
  | notANumber => simp [UnpackedFloat.compare]
  | finite s m e hm => cases s <;> simp [UnpackedFloat.compare]

end Round

section Difference

variable {u v : UnpackedFloat} {a b : ℚ}

def Bounded (u : UnpackedFloat) : Prop := (∃ s, u = .zero s) ∨ InRange u

theorem Shape.bounded {s : Sign} {r : Nat} (h : Shape s r u) (hn : numberOf? u = some a) :
    Bounded u := by
  cases h with
  | zero => exact .inl ⟨s, rfl⟩
  | finite pos lt full last he => exact .inr ⟨lt, by omega⟩
  | infinity | notANumber => cases hn

theorem numberOf_finite_ne_zero (s : Sign) {m : Nat} (hm : 0 < m) (e : Int) :
    (s.apply m * 2 ^ e : ℚ) ≠ 0 := by
  have hz : (2 : ℚ) ^ e ≠ 0 := zpow_ne_zero e two_ne_zero
  refine mul_ne_zero ?_ hz
  cases s <;> simp [Sign.apply, hm.ne']

theorem decreaseExponent_value (s : Sign) (m : Nat) {e e' : Int} (h : e' ≤ e) :
    (s.apply (decreaseExponent m e e').1 * 2 ^ e' : ℚ) = s.apply m * 2 ^ e := by
  obtain ⟨k, rfl⟩ := Int.le.dest h
  have hk : (e' + k - e').toNat = k := by omega
  have hs : (s.apply (m * 2 ^ k : ℕ) : ℚ) = s.apply m * 2 ^ k := by
    cases s <;> simp [Sign.apply]
  simp only [decreaseExponent, hk]
  rw [Nat.shiftLeft_eq, hs, zpow_add₀ two_ne_zero, zpow_natCast, mul_assoc, mul_comm (2 ^ k)]

theorem normalize_spec (M : Int) {e : Int} (he : -1074 ≤ e) :
    (M = 0 ∧ UnpackedFloat.normalize .binary64 M e .positive = .zero .positive) ∨
      (M ≠ 0 ∧ InRange (UnpackedFloat.normalize .binary64 M e .positive)) := by
  rw [UnpackedFloat.normalize]
  split
  case h_1 h =>
    have hM := compare_lt_iff_lt.1 h
    exact .inr ⟨hM.ne, inRange_round _ (by omega) he⟩
  case h_2 h => exact .inl ⟨compare_eq_iff_eq.1 h, rfl⟩
  case h_3 h =>
    have hM := compare_gt_iff_gt.1 h
    exact .inr ⟨hM.ne', inRange_round _ (by omega) he⟩

theorem sub_finite_spec (s t : Sign) {m m' : Nat} {e e' : Int} (hm : 0 < m) (hm' : 0 < m')
    (he : -1074 ≤ e) (he' : -1074 ≤ e') :
    ((s.apply m * 2 ^ e : ℚ) = t.apply m' * 2 ^ e' ∧ ∃ z,
        UnpackedFloat.sub .binary64 (.finite s m e hm) (.finite t m' e' hm') = .zero z) ∨
      ((s.apply m * 2 ^ e : ℚ) ≠ t.apply m' * 2 ^ e' ∧
        InRange (UnpackedFloat.sub .binary64 (.finite s m e hm) (.finite t m' e' hm'))) := by
  have hz : (2 : ℚ) ^ min e e' ≠ 0 := zpow_ne_zero _ two_ne_zero
  have hM : (s.apply m * 2 ^ e : ℚ) = t.apply m' * 2 ^ e' ↔
      s.apply (decreaseExponent m e (min e e')).1 -
        t.apply (decreaseExponent m' e' (min e e')).1 = 0 := by
    rw [← decreaseExponent_value s m (min_le_left e e'),
      ← decreaseExponent_value t m' (min_le_right e e'), mul_left_inj' hz, sub_eq_zero]
    exact Int.cast_inj
  rcases normalize_spec _ (le_min he he') with ⟨h, hn⟩ | ⟨h, hn⟩
  · exact .inl ⟨hM.2 h, _, hn⟩
  · exact .inr ⟨fun h' => h (hM.1 h'), hn⟩

/-- The difference of two numbers is zero if they are the same, and is else not rounded to it. -/
theorem sub_spec (hu : Bounded u) (hv : Bounded v) (ha : numberOf? u = some a)
    (hb : numberOf? v = some b) :
    (a = b ∧ ∃ s, UnpackedFloat.sub .binary64 u v = .zero s) ∨
      (a ≠ b ∧ InRange (UnpackedFloat.sub .binary64 u v)) := by
  rcases hu with ⟨s, rfl⟩ | hu
  · obtain rfl : 0 = a := Option.some.inj ha
    rcases hv with ⟨t, rfl⟩ | hv
    · obtain rfl : 0 = b := Option.some.inj hb
      refine .inl ⟨rfl, ?_⟩
      rw [UnpackedFloat.sub]
      split
      · exact ⟨_, rfl⟩
      · exact ⟨_, rfl⟩
    · cases v with
      | infinity | notANumber | zero => exact hv.elim
      | finite t m e hm =>
          obtain rfl := Option.some.inj hb
          exact .inr ⟨(numberOf_finite_ne_zero t hm e).symm, hv⟩
  · cases u with
    | infinity | notANumber | zero => exact hu.elim
    | finite s m e hm =>
        obtain rfl := Option.some.inj ha
        rcases hv with ⟨t, rfl⟩ | hv
        · obtain rfl : 0 = b := Option.some.inj hb
          exact .inr ⟨numberOf_finite_ne_zero s hm e, hu⟩
        · cases v with
          | infinity | notANumber | zero => exact hv.elim
          | finite t m' e' hm' =>
              obtain rfl := Option.some.inj hb
              exact sub_finite_spec s t hm hm' hu.2 hv.2

/-- A difference is a multiple of the least double, so that nothing but zero is rounded to zero. -/
theorem sub_bne_zero_iff {x y : Float} (hx : value? x = some a) (hy : value? y = some b) :
    (x - y != 0.0) = true ↔ a ≠ b := by
  obtain ⟨s, hsx⟩ := exists_shape x
  obtain ⟨t, hsy⟩ := exists_shape y
  have hu : (x - y).toModel.unpack = UnpackedFloat.unpack .binary64 (UnpackedFloat.pack .binary64
      (UnpackedFloat.sub .binary64 x.toModel.unpack y.toModel.unpack)) := rfl
  rw [bne_zero_iff, hu]
  rcases sub_spec (hsx.bounded hx) (hsy.bounded hy) hx hy with ⟨h, z, hz⟩ | ⟨h, hz⟩
  · rw [hz]
    have hp : UnpackedFloat.unpack .binary64 (UnpackedFloat.pack .binary64 (.zero z)) = .zero z := by
      cases z <;> rfl
    exact ⟨fun hn => absurd hp (hn z), fun hn => absurd h hn⟩
  · exact ⟨fun _ => h, fun _ => unpack_pack_ne_zero hz⟩

theorem sub_self_bne_zero {x : Float} (hx : value? x = none) : (x - x != 0.0) = true := by
  have hu : (x - x).toModel.unpack = UnpackedFloat.unpack .binary64 (UnpackedFloat.pack .binary64
      (UnpackedFloat.sub .binary64 x.toModel.unpack x.toModel.unpack)) := rfl
  have hn : UnpackedFloat.sub .binary64 x.toModel.unpack x.toModel.unpack = .notANumber := by
    rw [value?] at hx
    cases hw : x.toModel.unpack with
    | infinity s => cases s <;> rfl
    | notANumber => rfl
    | zero | finite =>
        rw [hw] at hx
        cases hx
  have hp : UnpackedFloat.unpack .binary64 (UnpackedFloat.pack .binary64 .notANumber) =
      .notANumber := rfl
  rw [bne_zero_iff, hu, hn, hp]
  intro s h
  cases h

end Difference

section Truncation

variable {x : Float}

theorem value_eq_none_iff : value? x = none ↔ ¬rank x < infinity := by
  obtain ⟨s, hs⟩ := exists_shape x
  rw [value?, hs.numberOf_eq]
  by_cases hr : rank x < infinity
  · rw [if_pos hr]
    refine ⟨fun h => ?_, fun h => absurd hr h⟩
    cases h
  · rw [if_neg hr]
    exact ⟨fun _ => hr, fun _ => rfl⟩

theorem isWhole_truncate (h : rank x < infinity) : IsWhole (truncate x) := by
  have hn := nearest_part_lt h
  rw [isWhole_iff, truncate, if_pos h, rank_ofRank _ hn.le]
  exact ⟨hn, unitsPerOne_dvd_nearest hn⟩

theorem truncate_eq_self (h : IsWhole x) : truncate x = x := by
  obtain ⟨hr, hd⟩ := (isWhole_iff x).1 h
  rw [truncate, if_pos hr, nearest_units hr hd, ofRank_rank hr.le]

end Truncation

end Reckon.Binary64

namespace Reckon

open Binary64

/-- A computed number is an integer if it is finite and has no fraction. -/
theorem NumberKind.ofFloat_eq_integer_iff (x : Float) : ofFloat x = .integer ↔ IsWhole x := by
  have hi : ofFloat x = .integer ↔ ¬(x - truncate x != 0.0) = true := by
    rw [ofFloat]
    split <;> simp_all
  rw [hi]
  cases hx : value? x with
  | none =>
      rw [truncate, if_neg (value_eq_none_iff.1 hx), sub_self_bne_zero hx]
      refine ⟨fun h => absurd rfl h, ?_⟩
      rintro ⟨n, hn⟩
      cases hx.symm.trans hn
  | some a =>
      have hr : rank x < infinity := by
        by_contra hr
        cases (value_eq_none_iff.2 hr).symm.trans hx
      obtain ⟨n, hn⟩ := isWhole_truncate hr
      rw [sub_bne_zero_iff hx hn, not_not]
      constructor
      · rintro rfl
        exact ⟨n, hx⟩
      · intro hw
        rw [truncate_eq_self hw] at hn
        exact Option.some.inj (hx.symm.trans hn)

end Reckon
