import Reckon.Proofs.Decimals
import Reckon.Proofs.Signs

namespace Reckon.Binary64

open Float.Model

section Units

theorem units_strictMono : StrictMono units := by
  refine strictMono_nat_of_lt_succ fun r => ?_
  obtain ⟨octave, m, rfl, hm, full⟩ := exists_mantissa r
  rw [Nat.add_assoc, units_octave hm.le full,
    units_octave (Nat.succ_le_of_lt hm) (full.imp_right Nat.le_succ_of_le)]
  exact Nat.mul_lt_mul_of_pos_right m.lt_succ_self (Nat.two_pow_pos octave)

theorem units_infinity : units infinity = 2 ^ 53 * 2 ^ 2045 := by
  have h : units (2045 * 2 ^ 52 + 2 ^ 53) = 2 ^ 53 * 2 ^ 2045 :=
    units_octave (Nat.le_refl _) (.inr (by decide))
  exact h

end Units

section Middle

variable {a a' b b' c q x : ℚ} {n : ℕ}

/-- From the middle of `a` and `b` on, which is `b`'s if `n` is even. -/
def FromMiddle (a b x : ℚ) (n : ℕ) : Prop := a + b ≤ 2 * x ∧ (a + b = 2 * x → Even n)

def UpToMiddle (a b x : ℚ) (n : ℕ) : Prop := 2 * x ≤ a + b ∧ (a + b = 2 * x → Even n)

theorem FromMiddle.of_lt (h : a + b < 2 * x) : FromMiddle a b x n :=
  ⟨h.le, fun he => absurd he h.ne⟩

theorem UpToMiddle.of_lt (h : 2 * x < a + b) : UpToMiddle a b x n :=
  ⟨h.le, fun he => absurd he h.ne'⟩

theorem FromMiddle.lower (h : FromMiddle a b x n) (ha : a' < a) : FromMiddle a' b x n :=
  .of_lt ((add_lt_add_left ha b).trans_le h.1)

theorem UpToMiddle.raise (h : UpToMiddle a b x n) (hb : b < b') : UpToMiddle a b' x n :=
  .of_lt (h.1.trans_lt (add_lt_add_right hb a))

theorem fromMiddle_mul (hc : 0 < c) :
    FromMiddle (a * c) (b * c) (x * c) n ↔ FromMiddle a b x n := by
  rw [FromMiddle, ← add_mul, ← mul_assoc, mul_le_mul_iff_of_pos_right hc, mul_left_inj' hc.ne']
  rfl

theorem upToMiddle_mul (hc : 0 < c) :
    UpToMiddle (a * c) (b * c) (x * c) n ↔ UpToMiddle a b x n := by
  rw [UpToMiddle, ← add_mul, ← mul_assoc, mul_le_mul_iff_of_pos_right hc, mul_left_inj' hc.ne']
  rfl

theorem nearer_above (h : a < b) : |b - q| ≤ |a - q| ↔ a + b ≤ 2 * q := by
  rw [← sq_le_sq]
  constructor <;> intro <;> nlinarith

theorem nearer_below (h : a < b) : |a - q| ≤ |b - q| ↔ 2 * q ≤ a + b := by
  rw [← sq_le_sq]
  constructor <;> intro <;> nlinarith

theorem as_near (h : a < b) : |a - q| = |b - q| ↔ a + b = 2 * q := by
  rw [le_antisymm_iff, le_antisymm_iff, nearer_above h, nearer_below h, and_comm]

end Middle

section HalfEven

variable {num den m : ℕ} {y : ℚ}

structure IsHalfEven (y : ℚ) (m : ℕ) : Prop where
  above : FromMiddle (m - 1) m y m
  below : UpToMiddle m (m + 1) y m

theorem IsHalfEven.of_abs_lt (h : |y - m| < 1 / 2) : IsHalfEven y m := by
  obtain ⟨hl, hu⟩ := abs_lt.1 h
  exact ⟨.of_lt (by linarith), .of_lt (by linarith)⟩

theorem cast_div_add_mod (num : ℕ) (hd : 0 < den) :
    (num / den : ℚ) = (num / den : ℕ) + (num % den : ℕ) / den := by
  have hd : (den : ℚ) ≠ 0 := Nat.cast_ne_zero.2 hd.ne'
  rw [div_eq_iff hd, add_mul, div_mul_cancel₀ _ hd]
  exact_mod_cast (Nat.div_add_mod' num den).symm

theorem isHalfEven_halfEven (num : ℕ) (hd : 0 < den) :
    IsHalfEven (num / den) (halfEven num den) := by
  have hd' : (0 : ℚ) < den := Nat.cast_pos.2 hd
  have hlt : 2 * (num % den) < den ↔ ((num % den : ℕ) / den : ℚ) < 1 / 2 := by
    rw [div_lt_div_iff₀ hd' two_pos, one_mul, mul_comm]
    exact_mod_cast Iff.rfl
  have heq : 2 * (num % den) = den ↔ ((num % den : ℕ) / den : ℚ) = 1 / 2 := by
    rw [div_eq_div_iff hd'.ne' two_ne_zero, one_mul, mul_comm]
    exact_mod_cast Iff.rfl
  have h0 : (0 : ℚ) ≤ (num % den : ℕ) / den := by positivity
  have h1 : ((num % den : ℕ) / den : ℚ) < 1 :=
    (div_lt_one hd').2 (Nat.cast_lt.2 (Nat.mod_lt num hd))
  rw [cast_div_add_mod num hd]
  simp only [halfEven, hlt, heq]
  generalize num / den = q
  generalize ((num % den : ℕ) / den : ℚ) = f at *
  split
  · refine .of_abs_lt (abs_lt.2 ⟨?_, ?_⟩) <;> linarith
  next hf =>
    split
    next he =>
      have hm : Even (q + q % 2) := by
        rw [Nat.even_iff]
        omega
      have hq : ((q % 2 : ℕ) : ℚ) ≤ 1 := by exact_mod_cast Nat.le_of_lt_succ (Nat.mod_lt q two_pos)
      have hq0 : (0 : ℚ) ≤ (q % 2 : ℕ) := by positivity
      refine ⟨⟨?_, fun _ => hm⟩, ⟨?_, fun _ => hm⟩⟩ <;> push_cast at * <;> linarith
    next he =>
      have hf : 1 / 2 < f := lt_of_le_of_ne (not_lt.1 hf) (Ne.symm he)
      refine .of_abs_lt (abs_lt.2 ⟨?_, ?_⟩) <;> push_cast <;> linarith

end HalfEven

section NextTo

/-- Of all ranks the one of the number next to `x` units; half-way, the even one. The ranks go on
beyond infinity, with larger and larger exponents. -/
structure NextTo (x : ℚ) (r : ℕ) : Prop where
  above : ∀ k < r, FromMiddle (units k) (units r) x r
  below : ∀ k > r, UpToMiddle (units r) (units k) x r

variable {x y : ℚ} {octave m r : ℕ}

theorem units_lt {k r : ℕ} (h : k < r) : (units k : ℚ) < units r :=
  Nat.cast_lt.2 (units_strictMono h)

theorem NextTo.of_neighbours
    (above : units r ≤ x ∨ ∃ k, r = k + 1 ∧ FromMiddle (units k) (units r) x r)
    (below : x ≤ units r ∨ UpToMiddle (units r) (units (r + 1)) x r) : NextTo x r := by
  constructor
  · intro k hk
    rcases above with h | ⟨k', rfl, h⟩
    · have hlt := units_lt hk
      exact .of_lt (by linarith)
    · rcases (Nat.le_of_lt_succ hk).eq_or_lt with rfl | hk
      · exact h
      · exact h.lower (units_lt hk)
  · intro k hk
    rcases below with h | h
    · have hlt := units_lt hk
      exact .of_lt (by linarith)
    · rcases (Nat.succ_le_of_lt hk).eq_or_lt with rfl | hk
      · exact h
      · exact h.raise (units_lt hk)

theorem even_rank (octave m : ℕ) : Even (octave * 2 ^ 52 + m) ↔ Even m := by
  rw [Nat.even_iff, Nat.even_iff]
  omega

theorem cast_units_octave (le : m ≤ 2 ^ 53) (full : octave = 0 ∨ 2 ^ 52 ≤ m) :
    (units (octave * 2 ^ 52 + m) : ℚ) = m * 2 ^ octave := by
  rw [units_octave le full, Nat.cast_mul, Nat.cast_pow, Nat.cast_two]

theorem IsHalfEven.bounds (h : IsHalfEven y m) (low : octave = 0 ∨ 2 ^ 52 ≤ y)
    (high : y < 2 ^ 53) : m ≤ 2 ^ 53 ∧ (octave = 0 ∨ 2 ^ 52 ≤ m) := by
  have ha := h.above.1
  have hb := h.below.1
  constructor
  · have hm : (m : ℚ) < 2 ^ 53 + 1 := by linarith
    have hm : m < 2 ^ 53 + 1 := by exact_mod_cast hm
    omega
  · refine low.imp_right fun h => ?_
    have hm : (2 ^ 52 : ℚ) < m + 1 := by linarith
    have hm : 2 ^ 52 < m + 1 := by exact_mod_cast hm
    omega

/-- What is in an octave is rounded by its mantissa. Where the octave begins or ends, the neighbour
outside does not matter, as nothing is rounded away from the octave. -/
theorem IsHalfEven.nextTo (h : IsHalfEven y m) (h0 : 0 ≤ y) (low : octave = 0 ∨ 2 ^ 52 ≤ y)
    (high : y < 2 ^ 53) : NextTo (y * 2 ^ octave) (octave * 2 ^ 52 + m) := by
  have hp : (0 : ℚ) < 2 ^ octave := by positivity
  obtain ⟨le, full⟩ := h.bounds low high
  apply NextTo.of_neighbours
  · rw [cast_units_octave le full]
    rcases le_or_gt (m : ℚ) y with hy | hy
    · exact .inl (mul_le_mul_of_nonneg_right hy hp.le)
    · obtain ⟨k, rfl⟩ := Nat.exists_eq_add_one_of_ne_zero (n := m) fun hz => by
        rw [hz, Nat.cast_zero] at hy
        exact hy.not_ge h0
      have full : octave = 0 ∨ 2 ^ 52 < k + 1 := low.imp_right fun h => by
        have hk : (2 ^ 52 : ℚ) < (k + 1 : ℕ) := h.trans_lt hy
        exact_mod_cast hk
      have hk := h.above
      rw [Nat.cast_succ, add_sub_cancel_right] at hk
      refine .inr ⟨octave * 2 ^ 52 + k, (Nat.add_assoc ..).symm, ?_⟩
      rw [cast_units_octave (by omega) (by omega), fromMiddle_mul hp, FromMiddle, even_rank,
        Nat.cast_succ]
      exact hk
  · rw [cast_units_octave le full]
    rcases le_or_gt y (m : ℚ) with hy | hy
    · exact .inl (mul_le_mul_of_nonneg_right hy hp.le)
    · have hm : m < 2 ^ 53 := by
        have hm : (m : ℚ) < 2 ^ 53 := hy.trans high
        exact_mod_cast hm
      refine .inr ?_
      rw [Nat.add_assoc, cast_units_octave hm (by omega), upToMiddle_mul hp, UpToMiddle, even_rank,
        Nat.cast_succ]
      exact h.below

theorem octave_bounds {num den octave : ℕ} (hd : 0 < den) (ho : octave = (num / den).log2 - 52) :
    (octave = 0 ∨ (2 ^ 52 : ℚ) ≤ num / (den * 2 ^ octave : ℕ)) ∧
      (num / (den * 2 ^ octave : ℕ) : ℚ) < 2 ^ 53 := by
  have hp : 0 < den * 2 ^ octave := Nat.mul_pos hd (Nat.two_pow_pos octave)
  have hp' : (0 : ℚ) < (den * 2 ^ octave : ℕ) := Nat.cast_pos.2 hp
  constructor
  · rcases Nat.eq_zero_or_pos octave with h | h
    · exact .inl h
    · have hl : (num / den).log2 = 52 + octave := by omega
      have hn : num / den ≠ 0 := by
        intro hz
        rw [hz, Nat.log2_zero] at hl
        omega
      have hle : 2 ^ 52 * (den * 2 ^ octave) ≤ num := by
        have hle := Nat.log2_self_le hn
        rwa [hl, Nat.le_div_iff_mul_le hd, Nat.pow_add, Nat.mul_right_comm, Nat.mul_assoc] at hle
      rw [le_div_iff₀ hp']
      exact .inr (by exact_mod_cast hle)
  · have hlt : num < 2 ^ 53 * (den * 2 ^ octave) := by
      have hlt := Nat.lt_log2_self (n := num / den)
      rw [Nat.div_lt_iff_lt_mul hd] at hlt
      refine hlt.trans_le ?_
      rw [Nat.mul_left_comm, Nat.mul_comm den, ← Nat.pow_add]
      exact Nat.mul_le_mul_right den (Nat.pow_le_pow_right Nat.two_pos (by omega))
    rw [div_lt_iff₀ hp']
    exact_mod_cast hlt

theorem exists_nextTo_nearest (num : ℕ) {den : ℕ} (hd : 0 < den) :
    ∃ r, nearest num den = min infinity r ∧ NextTo (num * unitsPerOne / den) r := by
  simp only [nearest]
  generalize unitsPerOne = one
  generalize ho : (num * one / den).log2 - 52 = octave
  obtain ⟨low, high⟩ := octave_bounds hd ho.symm
  have hp : (2 ^ octave : ℚ) ≠ 0 := by positivity
  have hp' : 0 < den * 2 ^ octave := Nat.mul_pos hd (Nat.two_pow_pos octave)
  have hx : ((num * one : ℕ) / (den * 2 ^ octave : ℕ) : ℚ) * 2 ^ octave =
      num * one / den := by
    rw [Nat.cast_mul den, Nat.cast_pow, Nat.cast_two, div_mul_eq_mul_div, mul_div_mul_right _ _ hp,
      Nat.cast_mul]
  refine ⟨octave * 2 ^ 52 + halfEven (num * one) (den * 2 ^ octave), rfl, ?_⟩
  rw [← hx]
  exact (isHalfEven_halfEven _ hp').nextTo (by positivity) low high

end NextTo

section Unsigned

variable {x : Float} {r : ℕ}

structure Unsigned (x : Float) : Prop where
  sign : isNegative x = false
  number : x.isNaN = false

/-- The number that a double stands for; infinity counts as what would come after the last. -/
def reach (x : Float) : ℚ := (value? x).getD (2 ^ 1024)

theorem shape_unsigned (h : isNegative x = false) : Shape .positive (rank x) x.toModel.unpack := by
  have hs := shape_unpack x.toBits.toBitVec
  rw [ofBitVec_unpackSign, if_neg] at hs
  · exact hs
  · intro hn
    rw [isNegative_iff.2 hn] at h
    cases h

theorem Unsigned.rank_le (h : Unsigned x) : rank x ≤ infinity := by
  have hs := shape_unsigned h.sign
  have hn : x.toModel.unpack.isNaN = false := h.number
  generalize rank x = r at hs
  generalize x.toModel.unpack = u at hs hn
  cases hs with
  | zero => exact Nat.zero_le _
  | infinity => exact Nat.le_refl _
  | notANumber => cases hn
  | finite pos lt full last he =>
      have hi : Binary64.infinity = 2047 * 2 ^ 52 := rfl
      omega

theorem unsigned_ofRank (h : r ≤ infinity) : Unsigned (ofRank false r) := by
  have hn := isNegative_ofRank false h
  refine ⟨hn, ?_⟩
  have hs := shape_unsigned hn
  rw [rank_ofRank false h] at hs
  show (ofRank false r).toModel.unpack.isNaN = false
  generalize (ofRank false r).toModel.unpack = u at hs
  cases hs with
  | zero | infinity | finite => rfl
  | notANumber hi => exact absurd h (Nat.not_le_of_lt hi)

theorem unsigned_iff : Unsigned x ↔ ∃ r, r ≤ infinity ∧ x = ofRank false r := by
  constructor
  · intro h
    have hx := ofRank_rank h.rank_le
    rw [h.sign] at hx
    exact ⟨rank x, h.rank_le, hx.symm⟩
  · rintro ⟨r, hr, rfl⟩
    exact unsigned_ofRank hr

theorem Unsigned.zero_le (h : Unsigned x) : (0.0 : Float) ≤ x := by
  have hs := shape_unsigned h.sign
  have hn : x.toModel.unpack.isNaN = false := h.number
  have hle : (0.0 : Float).toModel.unpack.le x.toModel.unpack = true := by
    show UnpackedFloat.le (.zero .positive) x.toModel.unpack = true
    generalize rank x = r at hs
    generalize x.toModel.unpack = u at hs hn
    cases hs with
    | zero | infinity | finite => rfl
    | notANumber => cases hn
  exact decide_eq_true hle

def place (r : ℕ) : ℚ := units r / unitsPerOne

theorem unitsPerOne_pos : (0 : ℚ) < unitsPerOne := by
  rw [cast_unitsPerOne]
  positivity

theorem units_eq (r : ℕ) : (units r : ℚ) = place r * unitsPerOne :=
  (div_mul_cancel₀ _ unitsPerOne_pos.ne').symm

theorem place_lt {k r : ℕ} (h : k < r) : place k < place r :=
  div_lt_div_of_pos_right (units_lt h) unitsPerOne_pos

theorem place_infinity : place infinity = 2 ^ 1024 := by
  obtain ⟨k, hk, hu⟩ := exists_unitsPerOne
  have he : 53 + 2045 = 1024 + k := by omega
  have hi : units infinity = 2 ^ 1024 * 2 ^ k := by
    rw [units_infinity, ← Nat.pow_add, ← Nat.pow_add, he]
  rw [place, hi, hu, Nat.cast_mul, Nat.cast_pow, Nat.cast_pow, Nat.cast_two]
  exact mul_div_cancel_right₀ _ (by positivity)

theorem reach_ofRank (h : r ≤ infinity) : reach (ofRank false r) = place r := by
  have hs := shape_unsigned (isNegative_ofRank false h)
  rw [rank_ofRank false h] at hs
  rw [reach, value?, hs.numberOf_eq]
  rcases h.lt_or_eq with hr | rfl
  · rw [if_pos hr]
    rfl
  · rw [if_neg (Nat.lt_irrefl _), place_infinity]
    rfl

end Unsigned

section Rounding

variable {q : ℚ} {x y : Float} {k r : ℕ}

/-- A double without a sign that is as near to a number as any, and even if another is as near. -/
structure RoundsTo (q : ℚ) (x : Float) : Prop extends Unsigned x where
  nearest : ∀ y, Unsigned y → |reach x - q| ≤ |reach y - q|
  even : ∀ y, Unsigned y → y ≠ x → |reach x - q| = |reach y - q| → Even x.toBits.toNat

theorem toNat_ofRank (h : r ≤ infinity) : (ofRank false r).toBits.toNat = r :=
  toNat_toBits_ofRank false h

theorem RoundsTo.of_middle (hr : r ≤ infinity)
    (above : ∀ k < r, FromMiddle (place k) (place r) q r)
    (below : ∀ k, r < k → k ≤ infinity → UpToMiddle (place r) (place k) q r) :
    RoundsTo q (ofRank false r) := by
  refine ⟨unsigned_ofRank hr, ?_, ?_⟩
  · intro y hy
    obtain ⟨k, hk, rfl⟩ := unsigned_iff.1 hy
    rw [reach_ofRank hr, reach_ofRank hk]
    rcases lt_trichotomy k r with hlt | rfl | hlt
    · exact (nearer_above (place_lt hlt)).2 (above k hlt).1
    · exact le_rfl
    · exact (nearer_below (place_lt hlt)).2 (below k hlt hk).1
  · intro y hy hne he
    obtain ⟨k, hk, rfl⟩ := unsigned_iff.1 hy
    rw [reach_ofRank hr, reach_ofRank hk] at he
    rw [toNat_ofRank hr]
    rcases lt_trichotomy k r with hlt | rfl | hlt
    · exact (above k hlt).2 ((as_near (place_lt hlt)).1 he.symm)
    · exact absurd rfl hne
    · exact (below k hlt hk).2 ((as_near (place_lt hlt)).1 he)

/-- What is next to a number among all ranks is so up to infinity, and beyond there is infinity. -/
theorem NextTo.roundsTo (h : NextTo (q * unitsPerOne) r) :
    RoundsTo q (ofRank false (min infinity r)) := by
  have above {k : ℕ} (hk : k < r) : FromMiddle (place k) (place r) q r := by
    have ha := h.above k hk
    rwa [units_eq, units_eq, fromMiddle_mul unitsPerOne_pos] at ha
  rcases le_or_gt r infinity with hr | hr
  · rw [min_eq_right hr]
    refine .of_middle hr (fun k hk => above hk) fun k hk _ => ?_
    have hb := h.below k hk
    rwa [units_eq, units_eq, upToMiddle_mul unitsPerOne_pos] at hb
  · rw [min_eq_left hr.le]
    refine .of_middle le_rfl (fun k hk => .of_lt ?_) fun k hk hi => absurd hk (Nat.not_lt_of_le hi)
    have hle := (above (hk.trans hr)).1
    have hlt := place_lt hr
    linarith

theorem RoundsTo.not_lt (hk : k ≤ infinity) (hx : RoundsTo q (ofRank false r))
    (hy : RoundsTo q (ofRank false k)) : ¬r < k := by
  intro hlt
  have hr := hlt.le.trans hk
  have hne : ofRank false r ≠ ofRank false k := by
    intro he
    have he := congrArg rank he
    rw [rank_ofRank _ hr, rank_ofRank _ hk] at he
    exact hlt.ne he
  have he := le_antisymm (hx.nearest _ hy.toUnsigned) (hy.nearest _ hx.toUnsigned)
  have hre := hx.even _ hy.toUnsigned hne.symm he
  have hke := hy.even _ hx.toUnsigned hne he.symm
  rw [toNat_ofRank hr, Nat.even_iff] at hre
  rw [toNat_ofRank hk, Nat.even_iff] at hke
  have hs : r + 1 < k := by omega
  have hn := hy.nearest _ (unsigned_ofRank (hs.le.trans hk))
  rw [reach_ofRank hr, reach_ofRank hk, as_near (place_lt hlt)] at he
  rw [reach_ofRank hk, reach_ofRank (hs.le.trans hk), nearer_above (place_lt hs)] at hn
  have hp := place_lt r.lt_succ_self
  linarith

/-- No number is rounded to two doubles. -/
theorem RoundsTo.eq (hx : RoundsTo q x) (hy : RoundsTo q y) : x = y := by
  obtain ⟨r, hr, rfl⟩ := unsigned_iff.1 hx.toUnsigned
  obtain ⟨k, hk, rfl⟩ := unsigned_iff.1 hy.toUnsigned
  rcases lt_trichotomy r k with h | rfl | h
  · exact absurd h (hx.not_lt hk hy)
  · rfl
  · exact absurd h (hy.not_lt hr hx)

theorem roundsTo_nearest (num : ℕ) {den : ℕ} (hd : 0 < den) :
    RoundsTo (num / den) (ofRank false (nearest num den)) := by
  obtain ⟨r, hr, h⟩ := exists_nextTo_nearest num hd
  rw [hr]
  refine NextTo.roundsTo ?_
  rwa [div_mul_eq_mul_div]

theorem roundsTo_zero (h0 : 0 ≤ q) (h : 2 * (q * unitsPerOne) < 1) :
    RoundsTo q (ofRank false 0) := by
  have hz : units 0 = 0 := rfl
  have ho : units (0 + 1) = 1 := rfl
  have hn : NextTo (q * unitsPerOne) 0 := by
    refine .of_neighbours (.inl ?_) (.inr ?_)
    · rw [hz, Nat.cast_zero]
      exact mul_nonneg h0 unitsPerOne_pos.le
    · rw [hz, ho, Nat.cast_zero, Nat.cast_one]
      exact .of_lt (h.trans_eq (zero_add 1).symm)
  exact hn.roundsTo

theorem roundsTo_infinity (h : place infinity ≤ q) : RoundsTo q (ofRank false infinity) := by
  refine .of_middle le_rfl (fun k hk => .of_lt ?_) fun k hk hi => absurd hk (Nat.not_lt_of_le hi)
  have hlt := place_lt hk
  linarith

end Rounding

end Reckon.Binary64

namespace Reckon.Decimal

open Binary64

variable {m n : ℕ}

def value (d : Decimal) : ℚ := d.digits * 10 ^ d.exponent

theorem place_infinity_le (hm : m ≠ 0) (hn : 400 ≤ n) : place infinity ≤ m * 10 ^ n := by
  have hm : (1 : ℚ) ≤ m := Nat.one_le_cast.2 (Nat.one_le_iff_ne_zero.2 hm)
  rw [place_infinity]
  calc (2 : ℚ) ^ 1024 ≤ 2 ^ (3 * n) := pow_le_pow_right₀ one_le_two (by omega)
    _ = 8 ^ n := by rw [pow_mul]; norm_num
    _ ≤ 10 ^ n := pow_le_pow_left₀ (by norm_num) (by norm_num) n
    _ ≤ m * 10 ^ n := le_mul_of_one_le_left (by positivity) hm

theorem two_mul_units_lt (hn : m.log2 + 1100 < 3 * n) :
    2 * (m / 10 ^ (n + 1) * unitsPerOne : ℚ) < 1 := by
  obtain ⟨k, hk, hu⟩ := exists_unitsPerOne
  have hlt : 2 * (m * 2 ^ k) < 10 ^ (n + 1) := by
    calc 2 * (m * 2 ^ k) < 2 * (2 ^ (m.log2 + 1) * 2 ^ k) := by
          have hm := Nat.lt_log2_self (n := m)
          have hp := Nat.two_pow_pos k
          gcongr
      _ = 2 ^ (m.log2 + 1 + k + 1) := by rw [← pow_add, ← pow_succ']
      _ ≤ 2 ^ (3 * (n + 1)) := Nat.pow_le_pow_right Nat.two_pos (by omega)
      _ = 8 ^ (n + 1) := by rw [pow_mul]; norm_num
      _ ≤ 10 ^ (n + 1) := Nat.pow_le_pow_left (by decide) _
  rw [hu, div_mul_eq_mul_div, mul_div_assoc', div_lt_one (by positivity)]
  exact_mod_cast hlt

/-- A decimal is rounded to the double of its rank. -/
theorem roundsTo_rank (d : Decimal) : RoundsTo d.value (ofRank false d.rank) := by
  obtain ⟨m, e⟩ := d
  rcases eq_or_ne m 0 with rfl | hm
  · rw [rank_zero, value, Nat.cast_zero, zero_mul]
    exact roundsTo_zero le_rfl (by rw [zero_mul, mul_zero]; exact one_pos)
  · rw [rank, if_neg hm]
    cases e with
    | ofNat n =>
        have hv : value ⟨m, .ofNat n⟩ = m * 10 ^ n := by
          rw [value, Int.ofNat_eq_natCast, zpow_natCast]
        rw [hv]
        dsimp only
        split
        next hn => exact roundsTo_infinity (place_infinity_le hm hn)
        next =>
          have h := roundsTo_nearest (m * 10 ^ n) Nat.one_pos
          rw [Nat.cast_one, div_one] at h
          exact_mod_cast h
    | negSucc n =>
        have hv : value ⟨m, .negSucc n⟩ = m / 10 ^ (n + 1) := by
          rw [value, zpow_negSucc, div_eq_mul_inv]
        rw [hv]
        dsimp only
        split
        next hn => exact roundsTo_zero (by positivity) (two_mul_units_lt hn)
        next =>
          have h := roundsTo_nearest m (Nat.pow_pos (n := n + 1) (Nat.succ_pos 9))
          exact_mod_cast h

end Reckon.Decimal
