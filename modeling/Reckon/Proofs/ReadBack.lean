import Reckon.Proofs.Inference
import Reckon.Proofs.Numerals
import Reckon.Proofs.Signs
import Reckon.Symbols.Builtin

namespace Reckon

open Binary64

namespace Value

variable {r : Nat} {k : NumberKind}

theorem display_positive (k : NumberKind) (h : r < infinity) :
    display ⟨ofRank false r, k⟩ = writeRank r := by
  have hr := rank_ofRank false h.le
  rw [display, writeFloat, hr, isNegative_ofRank false h.le]
  split
  next hz => rw [writeRank, if_pos hz.2]
  next => rfl

theorem display_negative (h : r < infinity) (hk : k = .integer → r ≠ 0) :
    display ⟨ofRank true r, k⟩ = "-" ++ writeRank r := by
  have hr := rank_ofRank true h.le
  rw [display, writeFloat, hr, isNegative_ofRank true h.le, if_neg fun hz => hk hz.1 hz.2]
  simp [h.le]

theorem display_integer_zero (negative : Bool) :
    display ⟨ofRank negative 0, .integer⟩ = writeRank 0 := by
  rw [display, rank_ofRank negative (Nat.zero_le infinity), writeRank]
  rfl

end Value

theorem ofFloat_zero (negative : Bool) : NumberKind.ofFloat (ofRank negative 0) = .integer := by
  rw [NumberKind.ofFloat_eq_integer_iff, isWhole_iff, rank_ofRank negative (Nat.zero_le infinity)]
  exact ⟨by decide, Nat.dvd_zero _⟩

section ReadBack

variable {r : Nat} {k : NumberKind}

theorem eq_negative_zero_iff (negative : Bool) (h : r < infinity) :
    (⟨ofRank negative r, k⟩ : Value) = .float (-0.0) ↔ negative = true ∧ r = 0 ∧ k = .float := by
  have hz : (-0.0 : Float) = ofRank true 0 := Float.toBits_inj.1 (by decide +kernel)
  have h0 : 0 ≤ infinity := Nat.zero_le infinity
  rw [hz, Value.float, Value.mk.injEq]
  constructor
  · rintro ⟨hx, hk⟩
    have hn := congrArg isNegative hx
    have hr := congrArg rank hx
    rw [isNegative_ofRank negative h.le, isNegative_ofRank true h0] at hn
    rw [rank_ofRank negative h.le, rank_ofRank true h0] at hr
    exact ⟨hn, hr, hk⟩
  · rintro ⟨rfl, rfl, rfl⟩
    exact ⟨rfl, rfl⟩

variable (s : Symbols)

theorem evaluate_writeRank (h : r < infinity) :
    ∃ k, evaluate .default s (Value.writeRank r) = .ok ⟨ofRank false r, k⟩ := by
  obtain ⟨cs, d, hw, hn, rfl⟩ := exists_numeral_writeRank h
  rw [hw]
  exact ⟨_, hn.evaluate_eq s⟩

theorem evaluate_minus_writeRank (h : r < infinity) :
    evaluate .default s ("-" ++ Value.writeRank r) = .ok (.computed (ofRank true r)) := by
  obtain ⟨cs, d, hw, hn, rfl⟩ := exists_numeral_writeRank h
  rw [hw, hn.evaluate_minus s, neg_ofRank h.le]

/-- The sign of a zero is lost, as what is computed and has no fraction counts as an integer. -/
theorem display_computed_iff (h : r < infinity) (hk : k = .integer → r ≠ 0) :
    (Value.computed (ofRank true r)).display = "-" ++ Value.writeRank r ↔
      ¬(r = 0 ∧ k = .float) := by
  by_cases h0 : r = 0
  · subst h0
    have hf : k = .float := by
      cases k with
      | integer => exact absurd rfl (hk rfl)
      | float => rfl
    rw [Value.computed, ofFloat_zero, Value.display_integer_zero]
    exact ⟨fun hw => absurd hw (by decide), fun hn => absurd ⟨rfl, hf⟩ hn⟩
  · rw [Value.computed, Value.display_negative h fun _ => h0]
    exact ⟨fun _ hz => h0 hz.1, fun _ => rfl⟩

/-- What is printed for a finite result has an equal value that is printed in the same way, unless
the result is a negative zero that counts as a float: its sign is printed, read, and then lost. -/
theorem display_reads_back (v : Value) (h : v.number.isFinite = true) :
    ∃ w, evaluate .default s v.display = .ok w ∧ (w.number == v.number) = true ∧
      (w.display = v.display ↔ v ≠ .float (-0.0)) := by
  obtain ⟨x, k⟩ := v
  have hr := rank_lt_of_isFinite h
  have hx := ofRank_rank hr.le
  have hs := beq_self h
  generalize isNegative x = negative at hx
  generalize rank x = r at hr hx
  subst hx
  rw [ne_eq, eq_negative_zero_iff negative hr]
  cases negative with
  | false =>
      obtain ⟨k', he⟩ := evaluate_writeRank s hr
      rw [Value.display_positive k hr]
      refine ⟨_, he, hs, ?_⟩
      rw [Value.display_positive k' hr]
      simp
  | true =>
      by_cases hk : k = .integer ∧ r = 0
      · obtain ⟨rfl, rfl⟩ := hk
        obtain ⟨k', he⟩ := evaluate_writeRank s hr
        rw [Value.display_integer_zero]
        refine ⟨_, he, beq_of_zeros (rank_ofRank _ hr.le) (rank_ofRank _ hr.le), ?_⟩
        rw [Value.display_positive k' hr]
        simp
      · have hk : k = .integer → r ≠ 0 := fun hi h0 => hk ⟨hi, h0⟩
        rw [Value.display_negative hr hk]
        refine ⟨_, evaluate_minus_writeRank s hr, hs, ?_⟩
        rw [display_computed_iff hr hk]
        simp

theorem negative_fraction_reads_back :
    (Value.integer (-2.5)).display = "-2.5" ∧ ∃ w, evaluate .default .standard "-2.5" = .ok w ∧
      (w.number == -2.5) = true ∧ w.display = "-2.5" := by
  have hd : (Value.integer (-2.5)).display = "-2.5" := by decide +kernel
  obtain ⟨w, he, hn, hw⟩ := display_reads_back .standard (.integer (-2.5)) (by decide +kernel)
  rw [hd] at he hw
  refine ⟨hd, w, he, hn, hw.2 fun h => ?_⟩
  cases congrArg Value.kind h

end ReadBack

end Reckon
