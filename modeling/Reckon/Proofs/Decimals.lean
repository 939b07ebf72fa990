import Reckon.Number.Decimal
import Reckon.Proofs.Rounding

namespace Reckon.Decimal

open Binary64

section Rank

variable {m n : Nat}

theorem rank_zero (e : Int) : rank ⟨0, e⟩ = 0 := if_pos rfl

theorem rank_whole (n : Nat) : rank ⟨n, 0⟩ = nearest n 1 := by
  rw [rank]
  by_cases h : n = 0
  · rw [if_pos h, h, nearest_zero]
  · have hn : (if 400 ≤ 0 then infinity else nearest (n * Nat.pow 10 0) 1) = nearest n 1 := by
      rw [if_neg (by decide), Nat.pow_eq, Nat.pow_zero, Nat.mul_one]
    rw [if_neg h]
    exact hn

theorem rank_ofNat (h : rank ⟨m, .ofNat n⟩ < infinity) :
    rank ⟨m * 10 ^ n, 0⟩ = rank ⟨m, .ofNat n⟩ := by
  rcases Nat.eq_zero_or_pos m with rfl | hm
  · rw [Nat.zero_mul, rank_zero, rank_zero]
  · rw [rank, if_neg hm.ne'] at h
    rw [rank_whole, rank, if_neg hm.ne']
    dsimp only at h ⊢
    split at h
    · exact absurd h (Nat.lt_irrefl _)
    next hn => rw [if_neg hn, Nat.pow_eq]

theorem rank_negSucc (hm : m ≠ 0) (h : 3 * n ≤ m.log2 + 1100) :
    rank ⟨m, .negSucc n⟩ = nearest m (10 ^ (n + 1)) := by
  have hn : (if m.log2 + 1100 < 3 * n then 0 else nearest m (Nat.pow 10 (n + 1))) =
      nearest m (10 ^ (n + 1)) := by rw [if_neg (Nat.not_lt.2 h), Nat.pow_eq]
  rw [rank, if_neg hm]
  exact hn

end Rank

section Found

variable {r k : Nat} {e : Int} {d : Decimal}

theorem rank_onGrid (h : onGrid? r e = some d) : d.rank = r := by
  simp only [onGrid?] at h
  split at h
  next hb =>
    cases h
    exact hb.1
  next =>
    split at h
    next ha =>
      cases h
      exact ha
    next => cases h

theorem eq_zero_of_units (hr : r < infinity) (h : units r = 0) : r = 0 := by
  rw [← nearest_exact hr Nat.one_pos (by rw [h, Nat.zero_mul, Nat.zero_mul]), nearest_zero]

/-- With as many places as there are halvings no digit is missing. -/
theorem rank_scaled (hr : r < infinity) (hu : unitsPerOne = 2 ^ (k + 1)) (hk : k ≤ 1102) :
    rank ⟨units r * 5 ^ (k + 1), .negSucc k⟩ = r := by
  have hp : 0 < 5 ^ (k + 1) := Nat.pow_pos (by decide)
  rcases Nat.eq_zero_or_pos (units r) with h | h
  · rw [h, Nat.zero_mul, rank_zero, eq_zero_of_units hr h]
  · have hm := Nat.mul_pos h hp
    have hl : 2 * (k + 1) ≤ (units r * 5 ^ (k + 1)).log2 := by
      rw [Nat.le_log2 hm.ne', Nat.pow_mul]
      exact (Nat.pow_le_pow_left (by decide) _).trans (Nat.le_mul_of_pos_left _ h)
    rw [rank_negSucc hm.ne' (by omega)]
    refine nearest_exact hr (Nat.pow_pos (by decide)) ?_
    rw [hu, Nat.mul_assoc, ← Nat.mul_pow]

theorem exists_exact (r : Nat) :
    ∃ k : Nat, k = 1074 ∧ unitsPerOne = 2 ^ k ∧ exact r = ⟨units r * 5 ^ k, -k⟩ := by
  have he : exact r = ⟨units r * Nat.pow 5 1074, -(1074 : Nat)⟩ := rfl
  rw [he]
  unfold unitsPerOne
  generalize 1074 = k
  exact ⟨k, rfl, Nat.pow_eq, by rw [Nat.pow_eq]⟩

theorem rank_exact (hr : r < infinity) : (exact r).rank = r := by
  obtain ⟨k, hk, hu, he⟩ := exists_exact r
  obtain ⟨k, rfl⟩ := Nat.exists_eq_succ_of_ne_zero (n := k) (by omega)
  rw [he]
  exact rank_scaled hr hu (by omega)

/-- A hit on a grid is rounded back because it was tried, and if nothing is hit all digits are
taken. -/
theorem rank_shortest (hr : r < infinity) : (shortest r).rank = r := by
  simp only [shortest]
  generalize 1074 = finest
  cases hf : List.findSome? _ _ with
  | none => exact rank_exact hr
  | some d =>
      obtain ⟨i, -, hi⟩ := List.exists_of_findSome?_eq_some hf
      exact rank_onGrid hi

end Found

end Reckon.Decimal
