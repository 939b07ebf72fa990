import Reckon.Proofs.Blame
import Reckon.Proofs.Inference
import Reckon.Proofs.Numerals

namespace Reckon

open Binary64

/-- What counts as an integer is one. -/
def Value.Honest (v : Value) : Prop := v.kind = .integer → IsWhole v.number

def Symbols.HonestConstants (s : Symbols) : Prop :=
  ∀ name v, s.get? name = some (.constant v) → v.Honest

section Literals

variable {text : String} {t : Token}

theorem isWhole_nearest_iff (n : Nat) : IsWhole (ofRank false (nearest n 1)) ↔ n < overflow := by
  rw [isWhole_iff, rank_ofRank _ (nearest_le n 1), ← nearest_lt_infinity_iff]
  exact ⟨And.left, fun h => ⟨h, unitsPerOne_dvd_nearest h⟩⟩

theorem literal_of_integer (h : t ∈ (Scan.ofString text).tokens) (hk : t.kind = .integer) :
    t.literal =
      .ok (.integer (ofRank false (nearest (Nat.ofDigitChars 10 t.lexeme.toList 0) 1))) := by
  obtain ⟨hne, hd⟩ := digits_of_integer h hk
  have hr := (Numeral.whole hne hd).read_eq
  rw [String.ofList_toList, Decimal.rank_whole] at hr
  rw [Token.literal, hr, hk]
  rfl

end Literals

section Values

variable {s : Symbols} {v : Value}

theorem honest_computed (x : Float) : (Value.computed x).Honest :=
  (NumberKind.ofFloat_eq_integer_iff x).1

theorem honest_float (x : Float) : (Value.float x).Honest := by
  intro h
  cases h

theorem isWhole_zero : IsWhole 0.0 := ⟨0, rfl⟩

theorem honest_named (hs : s.HonestConstants) {t : Token}
    (h : s.named t none = .ok v) : v.Honest := by
  unfold Symbols.named at h
  cases hg : s.get? t.lexeme with
  | none =>
      rw [hg] at h
      cases h
  | some m =>
      rw [hg] at h
      cases m with
      | constant w =>
          cases h
          exact hs _ _ hg
      | function f => cases h

theorem honest_of_float {t : Token} (hk : t.kind = .float) (h : t.literal = .ok v) : v.Honest := by
  rw [Token.literal] at h
  split at h
  · cases h
    rw [if_pos hk]
    exact honest_float _
  · cases h

theorem honest_of_bind {r : Except EvalError Value} {f : Value → Except EvalError Value}
    (hf : ∀ x, f x = .ok v → v.Honest) (h : r >>= f = .ok v) : v.Honest := by
  cases r with
  | error e => cases h
  | ok x => exact hf x h

theorem honest_of_computed {x : Float}
    (h : (Except.ok (.computed x) : Except EvalError Value) = .ok v) : v.Honest := by
  cases h
  exact honest_computed x

/-- A value is what was computed at the root of its tree, unless the tree is a literal alone. -/
theorem Tree.WellFormed.honest_or_literal {t : Tree} (hs : s.HonestConstants) (ht : t.WellFormed)
    (h : s.eval t = .ok v) :
    v.Honest ∨ ∃ u, t = .leaf u ∧ u.kind = .integer := by
  cases ht with
  | @leaf u hu =>
      rw [Symbols.eval, Symbols.alone] at h
      rcases hu with hu | hu | hu | hu <;> rw [hu] at h
      · exact .inl (honest_named hs h)
      · exact .inr ⟨u, rfl, hu⟩
      · exact .inl (honest_of_float hu h)
      · cases h
        exact .inl fun _ => isWhole_zero
  | @unary u a hu ha =>
      rw [Symbols.eval] at h
      refine .inl ?_
      rcases hu with hu | hu | hu <;> rw [hu] at h <;>
        exact honest_of_bind (fun x hx => honest_of_computed hx) h
  | @binary u a b hu ha hb =>
      rw [Symbols.eval] at h
      refine .inl ?_
      cases hk : u.kind with
      | plus | minus | times | divide | power =>
          rw [hk] at h
          exact honest_of_bind (fun x => honest_of_bind fun y hy => honest_of_computed hy) h
      | juxtaposition =>
          simp only [hk] at h
          cases hf : s.function? a with
          | some f =>
              rw [hf] at h
              refine honest_of_bind (fun y hy => ?_) h
              cases hy
              exact honest_float _
          | none =>
              rw [hf] at h
              exact honest_of_bind (fun x => honest_of_bind fun y hy => honest_of_computed hy) h
      | _ =>
          rw [hk] at hu
          cases hu

end Values

section Tables

theorem Symbols.HonestConstants.defineAll {s : Symbols} (hs : s.HonestConstants)
    {ds : List (String × Meaning)} (h : ∀ d ∈ ds, ∀ v, d.2 = .constant v → v.Honest) :
    (s.defineAll ds).HonestConstants := by
  induction ds generalizing s with
  | nil => exact hs
  | cons d ds ih =>
      rw [List.forall_mem_cons] at h
      refine ih (s := s.define d.1 d.2) ?_ h.2
      intro name v hg
      rw [Symbols.get?_define] at hg
      split at hg
      · exact h.1 v (Option.some.inj hg)
      · exact hs name v hg

theorem honestConstants_empty : Symbols.empty.HonestConstants := by
  intro name v h
  cases h

def Meaning.isFloating : Meaning → Bool
  | .constant v => v.kind = .float
  | .function _ => true

theorem honest_of_isFloating {m : Meaning} (h : m.isFloating = true) :
    ∀ v, m = .constant v → v.Honest := by
  rintro v rfl hk
  have hf : v.kind = .float := of_decide_eq_true h
  cases hk.symm.trans hf

theorem honestConstants_standard : Symbols.standard.HonestConstants := by
  have h : Symbols.standardNames.all (·.2.isFloating) = true := rfl
  exact honestConstants_empty.defineAll fun d hd => honest_of_isFloating (List.all_eq_true.1 h d hd)

theorem honestConstants_extended : Symbols.extended.HonestConstants := by
  have h : Symbols.furtherNames.all (·.2.isFloating) = true := rfl
  exact honestConstants_standard.defineAll fun d hd =>
    honest_of_isFloating (List.all_eq_true.1 h d hd)

end Tables

open Reckon.Parser

variable {o : Options} {s : Symbols} {text : String} {t : Token} {v : Value}

theorem exists_tree_of_evaluate (h : evaluate o s text = .ok v) :
    ∃ tree, parse o (.ofString text) = .ok tree ∧ s.eval tree = .ok v := by
  rw [evaluate] at h
  split at h
  next => cases h
  next tree hp =>
    refine ⟨tree, hp, ?_⟩
    split at h
    next => cases h
    next he =>
      cases h
      exact he

theorem eval_of_parse_leaf (hp : parse o (.ofString text) = .ok (.leaf t)) (hk : t.kind = .integer) :
    s.eval (.leaf t) =
      .ok (.integer (ofRank false (nearest (Nat.ofDigitChars 10 t.lexeme.toList 0) 1))) := by
  have hm := mem_tokens_of_mem_leaves hp (List.mem_singleton.2 rfl) (by rw [hk]; decide)
  rw [Symbols.eval, Symbols.alone, hk]
  exact literal_of_integer hm hk

theorem evaluate_digits {ds : List Char} (hne : ds ≠ []) (hd : ∀ c ∈ ds, c.isDigit = true)
    (s : Symbols) :
    evaluate .default s (String.ofList ds) =
      .ok (.integer (ofRank false (nearest (Nat.ofDigitChars 10 ds 0) 1))) := by
  have hp : '.' ∉ ds := fun hp => absurd (hd _ hp) (by decide)
  rw [(Numeral.whole hne hd).evaluate_eq s, if_neg hp, Decimal.rank_whole]
  rfl

/-- Values of integer kind are integers, if the constants are, as those known without being defined
are. Only a literal alone, from half-way between the last double and `2 ^ 1024` on, is an
exception. -/
theorem integer_results_are_whole (hs : s.HonestConstants) (h : evaluate o s text = .ok v)
    (hk : v.kind = .integer) :
    (IsWhole v.number ↔ ¬∃ t, parse o (.ofString text) = .ok (.leaf t) ∧ t.kind = .integer ∧
      overflow ≤ Nat.ofDigitChars 10 t.lexeme.toList 0) ∧
      Symbols.standard.HonestConstants ∧ Symbols.extended.HonestConstants := by
  refine ⟨?_, honestConstants_standard, honestConstants_extended⟩
  obtain ⟨tree, hp, he⟩ := exists_tree_of_evaluate h
  by_cases hl : ∃ t, tree = .leaf t ∧ t.kind = .integer
  · obtain ⟨t, rfl, ht⟩ := hl
    rw [eval_of_parse_leaf hp ht] at he
    cases he
    refine (isWhole_nearest_iff _).trans ?_
    rw [← Nat.not_le, not_iff_not]
    constructor
    · exact fun ho => ⟨t, hp, ht, ho⟩
    · rintro ⟨u, hu, -, ho⟩
      cases hp.symm.trans hu
      exact ho
  · rcases (wellFormed_of_parse hp).honest_or_literal hs he with hv | hl'
    · refine ⟨fun _ => ?_, fun _ => hv hk⟩
      rintro ⟨t, ht, hi, -⟩
      cases hp.symm.trans ht
      exact hl ⟨t, rfl, hi⟩
    · exact absurd hl' hl

theorem integer_quotient_is_whole :
    Symbols.standard.HonestConstants ∧
      ∃ v, evaluate .default .standard "6/3" = .ok v ∧ v.kind = .integer ∧ IsWhole v.number := by
  have hk : (evaluate .default .standard "6/3").toOption.map Value.kind = some .integer := by
    decide +kernel
  have hp : parse .default (.ofString "6/3") =
      .ok (.binary ⟨.divide, "/", 1, ⟨1, 1, 2⟩⟩ (.leaf ⟨.integer, "6", 1, ⟨0, 1, 1⟩⟩)
        (.leaf ⟨.integer, "3", 1, ⟨2, 1, 3⟩⟩)) := by decide +kernel
  refine ⟨honestConstants_standard, ?_⟩
  cases h : evaluate .default .standard "6/3" with
  | error e =>
      rw [h] at hk
      cases hk
  | ok v =>
      rw [h] at hk
      have hk : v.kind = .integer := Option.some.inj hk
      refine ⟨v, rfl, hk, (integer_results_are_whole honestConstants_standard h hk).1.2 ?_⟩
      rintro ⟨t, ht, -⟩
      cases hp.symm.trans ht

/-- A literal of some hundred digits is infinite, and of integer kind. -/
theorem infinite_integer_literal :
    Symbols.standard.HonestConstants ∧
      evaluate .default .standard (String.ofList ('1' :: List.replicate 309 '0')) =
        .ok (.integer (ofRank false infinity)) ∧ ¬IsWhole (ofRank false infinity) := by
  have hn : overflow ≤ Nat.ofDigitChars 10 ('1' :: List.replicate 309 '0') 0 := by decide +kernel
  have hi : nearest (Nat.ofDigitChars 10 ('1' :: List.replicate 309 '0') 0) 1 = infinity := by
    refine (nearest_le _ _).antisymm (Nat.le_of_not_lt fun hlt => ?_)
    exact Nat.not_lt_of_le hn (nearest_lt_infinity_iff.1 hlt)
  refine ⟨honestConstants_standard, ?_, ?_⟩
  · rw [evaluate_digits (List.cons_ne_nil _ _) ?_, hi]
    intro c hc
    rcases List.mem_cons.1 hc with rfl | hc
    · rfl
    · rw [List.eq_of_mem_replicate hc]
      rfl
  · rw [← hi, isWhole_nearest_iff]
    exact Nat.not_lt_of_le hn

end Reckon
