import Reckon.Proofs.Doubles

namespace Reckon.Binary64

section HalfEven

variable {num den k : Nat}

theorem halfEven_mul (q : Nat) (hd : 0 < den) : halfEven (q * den) den = q := by
  simp only [halfEven, Nat.mul_mod_left, Nat.mul_zero, Nat.mul_div_cancel _ hd]
  rw [if_pos hd]

theorem div_le_halfEven (num den : Nat) : num / den ≤ halfEven num den := by
  simp only [halfEven]
  split
  · exact Nat.le_refl _
  · split <;> omega

theorem halfEven_le_div (num den : Nat) : halfEven num den ≤ num / den + 1 := by
  simp only [halfEven]
  split
  · exact Nat.le_succ _
  · split <;> omega

theorem lt_halfEven_iff (hd : 0 < den) (hk : k % 2 = 1) :
    k < halfEven num den ↔ (2 * k + 1) * den ≤ 2 * num := by
  have hn := Nat.div_add_mod num den
  have hr := Nat.mod_lt num hd
  simp only [halfEven]
  generalize num / den = q at hn ⊢
  generalize num % den = r at hn hr ⊢
  rcases Nat.lt_trichotomy k q with h | rfl | h
  · have hm : (k + 1) * den ≤ den * q := by
      rw [Nat.mul_comm den]
      exact Nat.mul_le_mul_right den h
    refine ⟨fun _ => by nlinarith, fun _ => ?_⟩
    split
    · exact h
    · split <;> omega
  · have hm : (2 * k + 1) * den = 2 * (den * k) + den := by ring
    split
    · omega
    · split <;> omega
  · have hm : den * (q + 1) ≤ k * den := by
      rw [Nat.mul_comm]
      exact Nat.mul_le_mul_right den h
    refine ⟨fun hl => ?_, fun hl => by nlinarith⟩
    split at hl
    · omega
    · split at hl <;> omega

end HalfEven

section Octaves

variable {n m octave : Nat}

theorem log2_mul_pow (hn : n ≠ 0) (k : Nat) : (n * 2 ^ k).log2 = n.log2 + k := by
  rw [Nat.log2_eq_iff (Nat.mul_ne_zero hn (Nat.two_pow_pos k).ne'), Nat.pow_add,
    Nat.add_right_comm, Nat.pow_add]
  have hk := Nat.two_pow_pos k
  exact ⟨Nat.mul_le_mul_right _ (Nat.log2_self_le hn),
    (Nat.mul_lt_mul_right hk).2 Nat.lt_log2_self⟩

theorem exists_unitsPerOne : ∃ k, k = 1074 ∧ unitsPerOne = 2 ^ k := by
  unfold unitsPerOne
  generalize 1074 = k
  exact ⟨k, rfl, Nat.pow_eq⟩

theorem halfEven_octave (hn : n ≠ 0) (hl : n.log2 = octave + 52) :
    2 ^ 52 ≤ halfEven n (2 ^ octave) ∧ halfEven n (2 ^ octave) ≤ 2 ^ 53 := by
  have hp := Nat.two_pow_pos octave
  have hlow : 2 ^ 52 ≤ n / 2 ^ octave := by
    rw [Nat.le_div_iff_mul_le hp, ← Nat.pow_add, Nat.add_comm, ← hl]
    exact Nat.log2_self_le hn
  have hhigh : n / 2 ^ octave < 2 ^ 53 := by
    rw [Nat.div_lt_iff_lt_mul hp, ← Nat.pow_add, Nat.add_comm]
    have h := Nat.lt_log2_self (n := n)
    rwa [hl, Nat.add_assoc] at h
  exact ⟨hlow.trans (div_le_halfEven _ _), (halfEven_le_div _ _).trans hhigh⟩

theorem nearest_eq (hn : n ≠ 0) :
    nearest n 1 = min infinity ((n.log2 + 1022) * 2 ^ 52 +
      halfEven (n * unitsPerOne) (2 ^ (n.log2 + 1022))) ∧
    2 ^ 52 ≤ halfEven (n * unitsPerOne) (2 ^ (n.log2 + 1022)) ∧
    halfEven (n * unitsPerOne) (2 ^ (n.log2 + 1022)) ≤ 2 ^ 53 := by
  obtain ⟨k, hk, hu⟩ := exists_unitsPerOne
  have hl : (n * unitsPerOne).log2 = n.log2 + 1022 + 52 := by
    rw [hu, log2_mul_pow hn, hk]
  refine ⟨?_, halfEven_octave ?_ hl⟩
  · simp only [nearest]
    rw [Nat.div_one, hl, Nat.add_sub_cancel, Nat.one_mul]
    rfl
  · rw [hu]
    exact Nat.mul_ne_zero hn (Nat.two_pow_pos _).ne'

theorem nearest_le (num den : Nat) : nearest num den ≤ infinity := Nat.min_le_left _ _

theorem nearest_zero : nearest 0 1 = 0 := by
  simp [nearest, halfEven]

theorem unitsPerOne_dvd_nearest (h : nearest n 1 < infinity) :
    unitsPerOne ∣ units (nearest n 1) := by
  rcases Nat.eq_zero_or_pos n with rfl | hn
  · rw [nearest_zero]
    exact Nat.dvd_zero _
  · obtain ⟨he, hlow, hhigh⟩ := nearest_eq hn.ne'
    have hr : nearest n 1 = (n.log2 + 1022) * 2 ^ 52 +
        halfEven (n * unitsPerOne) (2 ^ (n.log2 + 1022)) := by omega
    obtain ⟨k, hk, hu⟩ := exists_unitsPerOne
    rw [hr, units_octave hhigh (.inr hlow), hu]
    rcases Nat.le_total k (n.log2 + 1022) with hle | hle
    · exact Nat.dvd_mul_left_of_dvd (Nat.pow_dvd_pow 2 hle) _
    · -- the units of the octave are fractions of one, so nothing is rounded
      have hs : n * 2 ^ k = n * 2 ^ (k - (n.log2 + 1022)) * 2 ^ (n.log2 + 1022) := by
        rw [Nat.mul_assoc, ← Nat.pow_add, Nat.sub_add_cancel hle]
      rw [hs, halfEven_mul _ (Nat.two_pow_pos _), ← hs]
      exact Nat.dvd_mul_left _ _

/-- Half-way between the last double and `2 ^ 1024`. -/
def overflow : Nat := (2 ^ 54 - 1) * 2 ^ 970

theorem exists_overflow : ∃ k, k = 970 ∧ overflow = (2 ^ 54 - 1) * 2 ^ k := by
  unfold overflow
  generalize 970 = k
  exact ⟨k, rfl, rfl⟩

/-- From half-way between the last double and `2 ^ 1024` on a natural number is rounded to infinity.
-/
theorem nearest_lt_infinity_iff : nearest n 1 < infinity ↔ n < overflow := by
  have hi : infinity = 2047 * 2 ^ 52 := rfl
  obtain ⟨k, hk, ho⟩ := exists_overflow
  have hp := Nat.two_pow_pos k
  rcases Nat.eq_zero_or_pos n with rfl | hn
  · rw [nearest_zero, ho]
    omega
  · obtain ⟨he, hlow, hhigh⟩ := nearest_eq hn.ne'
    have hlt : n.log2 < 53 + k ↔ n < 2 ^ 53 * 2 ^ k := by
      rw [Nat.log2_lt hn.ne', Nat.pow_add]
    have hle : 54 + k ≤ n.log2 ↔ 2 ^ 54 * 2 ^ k ≤ n := by
      rw [Nat.le_log2 hn.ne', Nat.pow_add]
    rcases Nat.lt_trichotomy n.log2 1023 with h | h | h
    · omega
    · -- in the last octave the mantissa decides, and it goes over at half-way
      obtain ⟨u, hu, hU⟩ := exists_unitsPerOne
      have hl : n.log2 + 1022 = k + 1 + u := by omega
      have hd : 2 ^ (k + 1 + u) = 2 * 2 ^ k * 2 ^ u := by ring
      have hm : 2 ^ 53 - 1 < halfEven (n * 2 ^ u) (2 * 2 ^ k * 2 ^ u) ↔ overflow ≤ n := by
        have hv := Nat.two_pow_pos u
        rw [lt_halfEven_iff (Nat.mul_pos (Nat.mul_pos Nat.two_pos hp) hv) (by decide), ho,
          ← Nat.mul_assoc, ← Nat.mul_assoc 2, Nat.mul_le_mul_right_iff hv]
        omega
      rw [hU, hl, hd] at he hlow hhigh
      omega
    · omega

theorem nearest_exact {num den r : Nat} (hr : r < infinity) (hd : 0 < den)
    (h : num * unitsPerOne = units r * den) : nearest num den = r := by
  obtain ⟨octave, m, rfl, hhigh, full, -⟩ := exists_octave hr
  rw [units_octave hhigh.le full] at h
  have ho : (m * 2 ^ octave).log2 - 52 = octave := by
    rcases full with rfl | hlow
    · rw [Nat.pow_zero, Nat.mul_one]
      rcases Nat.eq_zero_or_pos m with rfl | hm
      · rfl
      · exact Nat.sub_eq_zero_of_le (Nat.le_of_lt_succ ((Nat.log2_lt hm.ne').2 hhigh))
    · have hm : m ≠ 0 := by omega
      rw [log2_mul_pow hm, (Nat.log2_eq_iff hm).2 ⟨hlow, hhigh⟩, Nat.add_sub_cancel_left]
  have hs : m * 2 ^ octave * den = m * (den * 2 ^ octave) := by ring
  simp only [nearest]
  rw [h, Nat.mul_div_cancel _ hd, ho, hs]
  exact (congrArg (fun k => min infinity (octave * 2 ^ 52 + k))
    (halfEven_mul m (Nat.mul_pos hd (Nat.two_pow_pos octave)))).trans (Nat.min_eq_right hr.le)

theorem nearest_units {r : Nat} (hr : r < infinity) (hd : unitsPerOne ∣ units r) :
    nearest (units r / unitsPerOne) 1 = r :=
  nearest_exact hr Nat.one_pos (by rw [Nat.div_mul_cancel hd, Nat.mul_one])

theorem nearest_part_lt {r : Nat} (hr : r < infinity) :
    nearest (units r / unitsPerOne) 1 < infinity := by
  obtain ⟨u, hu, hU⟩ := exists_unitsPerOne
  obtain ⟨k, hk, ho⟩ := exists_overflow
  obtain ⟨octave, m, rfl, hhigh, full, hlast⟩ := exists_octave hr
  rw [nearest_lt_infinity_iff, units_octave hhigh.le full, hU,
    Nat.div_lt_iff_lt_mul (Nat.two_pow_pos u), ho, Nat.mul_assoc, ← Nat.pow_add]
  have hp := Nat.two_pow_pos (k + u)
  have hle : 2 ^ octave ≤ 2 * 2 ^ (k + u) := by
    rw [← Nat.pow_succ']
    exact Nat.pow_le_pow_right Nat.two_pos (by omega)
  calc m * 2 ^ octave ≤ (2 ^ 53 - 1) * (2 * 2 ^ (k + u)) :=
        Nat.mul_le_mul (Nat.le_sub_one_of_lt hhigh) hle
    _ < (2 ^ 54 - 1) * 2 ^ (k + u) := by omega

end Octaves

end Reckon.Binary64
