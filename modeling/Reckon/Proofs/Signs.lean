import Reckon.Proofs.Doubles

namespace Reckon.Binary64

open Float.Model Float.Model.UnpackedFloat

section Bits

variable {b b' : BitVec (Format.numBits .binary64)}

theorem ofBitVec_unpackSign (b : BitVec (Format.numBits .binary64)) :
    Sign.ofBitVec (unpackSign b) = if 2 ^ 63 ≤ b.toNat then .negative else .positive := by
  have hb : b.toNat < 2 ^ 64 := b.isLt
  have hn : (unpackSign b).toNat = b.toNat / 2 ^ 63 := by
    simp only [unpackSign]
    rw [BitVec.toNat_cast, BitVec.extractLsb_toNat]
    simp [Nat.shiftRight_eq_div_pow]
    omega
  have hz : unpackSign b = 0#1 ↔ b.toNat / 2 ^ 63 = 0 := by
    rw [← BitVec.toNat_inj, hn]
    rfl
  rw [Sign.ofBitVec]
  by_cases h : 2 ^ 63 ≤ b.toNat
  · rw [if_pos h, if_neg (mt hz.1 (by omega))]
  · rw [if_neg h, if_pos (hz.2 (by omega))]

theorem unpack_neg (hs : 2 ^ 63 ≤ b'.toNat ↔ ¬2 ^ 63 ≤ b.toNat)
    (hr : b'.toNat % 2 ^ 63 = b.toNat % 2 ^ 63) :
    UnpackedFloat.unpack .binary64 b' = (UnpackedFloat.unpack .binary64 b).neg := by
  have hm : unpackMantissa b' = unpackMantissa b := by
    rw [← BitVec.toNat_inj, toNat_unpackMantissa, toNat_unpackMantissa, hr]
  have he : unpackExponent b' = unpackExponent b := by
    rw [← BitVec.toNat_inj, toNat_unpackExponent, toNat_unpackExponent, hr]
  have hn : Sign.ofBitVec (unpackSign b') = -Sign.ofBitVec (unpackSign b) := by
    rw [ofBitVec_unpackSign, ofBitVec_unpackSign]
    by_cases h : 2 ^ 63 ≤ b.toNat
    · rw [if_pos h, if_neg fun h' => hs.1 h' h]
      rfl
    · rw [if_neg h, if_pos (hs.2 h)]
      rfl
  rw [UnpackedFloat.unpack, UnpackedFloat.unpack]
  simp only [hm, he, hn]
  split
  · split <;> rfl
  · split
    · split <;> rfl
    · rfl

end Bits

section Negation

variable {r : Nat} {x y : Float}

theorem isNegative_iff : isNegative x = true ↔ 2 ^ 63 ≤ x.toBits.toNat := decide_eq_true_iff

theorem isNegative_ofRank (negative : Bool) (h : r ≤ infinity) :
    isNegative (ofRank negative r) = negative := by
  have hi : infinity < 2 ^ 63 := by decide
  rw [Bool.eq_iff_iff, isNegative_iff, toNat_toBits_ofRank negative h]
  cases negative <;> simp
  omega

theorem neg_eq (h : rank x ≤ infinity) : -x = ofRank (!isNegative x) (rank x) := by
  have hs : 2 ^ 63 ≤ (ofRank (!isNegative x) (rank x)).toBits.toNat ↔ ¬2 ^ 63 ≤ x.toBits.toNat := by
    rw [← isNegative_iff, ← isNegative_iff, isNegative_ofRank _ h, Bool.not_eq_true',
      Bool.not_eq_true]
  have hr : (ofRank (!isNegative x) (rank x)).toBits.toNat % 2 ^ 63 = x.toBits.toNat % 2 ^ 63 :=
    rank_ofRank _ h
  have hb : (ofRank (!isNegative x) (rank x)).toBits.toBitVec.toNat % 2 ^ 63 ≤ infinity :=
    hr.trans_le h
  have hu : UnpackedFloat.unpack .binary64 (ofRank (!isNegative x) (rank x)).toBits.toBitVec =
      (UnpackedFloat.unpack .binary64 x.toBits.toBitVec).neg := unpack_neg hs hr
  refine Float.toBits_inj.1 (UInt64.toBitVec_inj.1 ?_)
  show UnpackedFloat.pack .binary64 (UnpackedFloat.unpack .binary64 x.toBits.toBitVec).neg = _
  rw [← hu, pack_unpack_self hb]

theorem neg_ofRank (h : r ≤ infinity) : -ofRank false r = ofRank true r := by
  have hr := rank_ofRank false h
  rw [neg_eq (hr.trans_le h), hr, isNegative_ofRank false h]
  rfl

end Negation

section Equality

variable {x y : Float}

theorem rank_lt_of_isFinite (h : x.isFinite = true) : rank x < infinity := by
  obtain ⟨s, hs⟩ := exists_shape x
  have h : x.toModel.unpack.isFinite = true := h
  generalize rank x = r at hs ⊢
  generalize x.toModel.unpack = u at hs h
  cases hs with
  | zero => decide
  | finite pos lt full last he =>
      have hi : Binary64.infinity = 2047 * 2 ^ 52 := rfl
      omega
  | infinity | notANumber => cases h

theorem beq_self (h : x.isFinite = true) : (x == x) = true := by
  have h : x.toModel.unpack.isFinite = true := h
  show (UnpackedFloat.compare x.toModel.unpack x.toModel.unpack == some .eq) = true
  cases hu : x.toModel.unpack with
  | zero s => rfl
  | finite s m e hm => cases s <;> simp [UnpackedFloat.compare]
  | infinity | notANumber =>
      rw [hu] at h
      cases h

theorem beq_of_zeros (hx : rank x = 0) (hy : rank y = 0) : (x == y) = true := by
  have unpack_zero {x : Float} (hx : rank x = 0) : ∃ s, x.toModel.unpack = .zero s := by
    obtain ⟨s, hs⟩ := exists_shape x
    rw [hx] at hs
    generalize hr : 0 = r at hs
    generalize x.toModel.unpack = u at hs
    cases hs with
    | zero => exact ⟨s, rfl⟩
    | finite pos => omega
    | infinity => cases hr
    | notANumber h => omega
  obtain ⟨s, hs⟩ := unpack_zero hx
  obtain ⟨t, ht⟩ := unpack_zero hy
  show (UnpackedFloat.compare x.toModel.unpack y.toModel.unpack == some .eq) = true
  rw [hs, ht]
  rfl

end Equality

end Reckon.Binary64
