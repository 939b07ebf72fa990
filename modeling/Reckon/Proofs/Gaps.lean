import Mathlib.Data.List.DropRight
import Reckon.Proofs.Segmentation

namespace Reckon

/-- Characters that only stand between tokens: blanks, line feeds, and all else that is no letter
from A to Z, no digit, no dot and no symbol. -/
def IsIgnorable (c : Char) : Prop := c.isAlphanum = false ∧ c ∉ ".+-*/^|&%()".toList

/-- The place between two parts of a text is inside none of its tokens. -/
def IsSeam (a b : String) : Prop :=
  ∀ t ∈ (Scan.ofString (a ++ b)).tokens,
    ¬(t.position.offset < a.utf8ByteSize ∧ a.utf8ByteSize < t.stop)

theorem Kind.mem_of_mem_symbols : ∀ s ∈ symbols, s.1 ∈ ".+-*/^|&%()".toList := by decide

namespace IsIgnorable

variable {c : Char} {gap : String}

theorem not_alpha (h : IsIgnorable c) : c.isAlpha = false := (Bool.or_eq_false_iff.1 h.1).1

theorem not_numeral (h : IsIgnorable c) : isNumeral c = false := by
  have hd : c.isDigit = false := (Bool.or_eq_false_iff.1 h.1).2
  have hp : c ≠ '.' := by
    rintro rfl
    exact h.2 (by decide)
  simp [isNumeral, hd, hp]

theorem ofRun_eq_none (h : IsIgnorable c) (cs : List Char) : Kind.ofRun? (c :: cs) = none := by
  rw [ofRun_of_other h.not_alpha h.not_numeral]
  cases hk : Kind.ofSymbol? c with
  | none => rfl
  | some k => exact absurd (Kind.mem_of_mem_symbols _ (Kind.ofSymbol_eq_some_iff.1 hk)) h.2

theorem words_eq_nil (h : ∀ c ∈ gap.toList, IsIgnorable c) : words gap = [] := by
  rw [words_eq_filterMap, List.filterMap_eq_nil_iff]
  intro run hr
  obtain ⟨c, cs, rfl⟩ := List.exists_cons_of_ne_nil (List.ne_nil_of_mem_splitBy hr)
  have hc : c ∈ gap.toList := by
    rw [← List.flatten_splitBy joins gap.toList]
    exact List.mem_flatten_of_mem hr List.mem_cons_self
  rw [wordOfRun?, (h c hc).ofRun_eq_none, Option.map_none]

theorem words_append (h : ∀ c ∈ gap.toList, IsIgnorable c) (hne : gap ≠ "") (a b : String) :
    words (a ++ gap ++ b) = words a ++ words b := by
  have hg : gap.toList ≠ [] := mt String.toList_eq_nil_iff.1 hne
  have hl : Apart a gap := by
    intro x _ y hy
    have hi := h y (List.mem_of_mem_head? hy)
    rw [joins, hi.not_alpha, hi.not_numeral, Bool.and_false, Bool.and_false, Bool.or_false]
  have hr : Apart (a ++ gap) b := by
    intro x hx y _
    rw [String.toList_append, List.getLast?_append_of_ne_nil _ hg] at hx
    have hi := h x (List.mem_of_mem_getLast? hx)
    rw [joins, hi.not_alpha, hi.not_numeral, Bool.false_and, Bool.false_and, Bool.or_false]
  rw [Reckon.words_append hr, Reckon.words_append hl, words_eq_nil h, List.append_nil]

end IsIgnorable

theorem words_blank (a b : String) : words (a ++ " " ++ b) = words a ++ words b :=
  IsIgnorable.words_append (by simp [IsIgnorable]) (by decide) a b

theorem exists_maximalRun {P : Char → Bool} {a b : List Char} {x y : Char} (hx : x ∈ a.getLast?)
    (hy : y ∈ b.head?) (hpx : P x = true) (hpy : P y = true) :
    ∃ before l r after, a = before ++ l ∧ b = r ++ after ∧ l ≠ [] ∧ r ≠ [] ∧
      MaximalRun P before (l ++ r) after := by
  obtain ⟨a, rfl⟩ := List.getLast?_eq_some_iff.1 hx
  obtain ⟨b, rfl⟩ := List.head?_eq_some_iff.1 hy
  have hl : (a ++ [x]).rtakeWhile P ≠ [] := by
    rw [List.rtakeWhile_concat_pos _ _ _ hpx]
    exact List.concat_ne_nil _ _
  have hr : (y :: b).takeWhile P ≠ [] := by
    rw [List.takeWhile_cons_of_pos hpy]
    exact List.cons_ne_nil _ _
  refine ⟨_, _, _, _, List.rdropWhile_append_rtakeWhile.symm,
    List.takeWhile_append_dropWhile.symm, hl, hr,
    ⟨List.append_ne_nil_of_left_ne_nil hl _, ?_, ?_, ?_⟩⟩
  · intro c hc
    rcases List.mem_append.1 hc with hc | hc
    · exact List.mem_rtakeWhile_imp hc
    · exact List.mem_takeWhile_imp hc
  · intro c hc
    obtain ⟨l, hl⟩ := List.getLast?_eq_some_iff.1 hc
    have hn : (a ++ [x]).rdropWhile P ≠ [] := hl ▸ List.concat_ne_nil _ _
    have hlast := List.rdropWhile_last_not P _ hn
    simpa [hl] using hlast
  · intro c hc
    have hhead := List.head?_dropWhile_not P (y :: b)
    rwa [hc] at hhead

theorem exists_token_over {P : Char → Bool} {a b : String} {x y : Char}
    (hx : x ∈ a.toList.getLast?) (hy : y ∈ b.toList.head?) (hpx : P x = true) (hpy : P y = true)
    (hs : ∀ before run after, MaximalRun P before run after → ∃ k, Segment before after run k) :
    ∃ t ∈ (Scan.ofString (a ++ b)).tokens,
      t.position.offset < a.utf8ByteSize ∧ a.utf8ByteSize < t.stop := by
  obtain ⟨before, l, r, after, hl, hr, hnl, hnr, hm⟩ := exists_maximalRun hx hy hpx hpy
  obtain ⟨k, hs⟩ := hs _ _ _ hm
  have ha : a = String.ofList before ++ String.ofList l := by
    rw [← String.ofList_append, ← hl, String.ofList_toList]
  have hb : b = String.ofList r ++ String.ofList after := by
    rw [← String.ofList_append, ← hr, String.ofList_toList]
  have ht : a ++ b = String.ofList before ++ String.ofList (l ++ r) ++ String.ofList after := by
    rw [ha, hb, String.ofList_append, String.append_assoc, String.append_assoc, String.append_assoc]
  obtain ⟨t, hmem, hlx, -, hst⟩ := Scan.exists_mem_of_segment (k := k) ht (by simpa using hs)
  have size_pos {cs : List Char} (h : cs ≠ []) : 0 < (String.ofList cs).utf8ByteSize := by
    refine Nat.pos_of_ne_zero (String.utf8ByteSize_eq_zero_iff.not.2 ?_)
    exact mt String.ofList_eq_empty_iff.1 h
  have hl := size_pos hnl
  have hr := size_pos hnr
  refine ⟨t, hmem, ?_, ?_⟩
  · rw [hst.offset, ha, String.utf8ByteSize_append]
    omega
  · rw [Token.stop, hst.offset, hst.size, hlx, ha, String.ofList_append, String.utf8ByteSize_append,
      String.utf8ByteSize_append]
    omega

theorem IsSeam.apart {a b : String} (h : IsSeam a b) : Apart a b := by
  intro x hx y hy
  by_contra hj
  rw [Bool.not_eq_false, joins, Bool.or_eq_true, Bool.and_eq_true, Bool.and_eq_true] at hj
  rcases hj with ⟨hpx, hpy⟩ | ⟨hpx, hpy⟩
  · obtain ⟨t, ht, ho⟩ := exists_token_over hx hy hpx hpy fun _ _ _ h => ⟨_, .name h⟩
    exact h t ht ho
  · obtain ⟨t, ht, ho⟩ := exists_token_over hx hy hpx hpy fun _ _ _ h => ⟨_, .number h⟩
    exact h t ht ho

/-- A gap at a place between tokens changes no word. -/
theorem words_gap {a gap b : String} (hb : IsSeam a b) (hg : ∀ c ∈ gap.toList, IsIgnorable c) :
    words (a ++ gap ++ b) = words (a ++ b) := by
  by_cases hn : gap = ""
  · rw [hn, String.append_empty]
  · rw [IsIgnorable.words_append hg hn, Reckon.words_append hb.apart]

theorem words_intercalate {ts : List Token} (h : ∀ t ∈ ts, t.IsLexical) :
    words (" ".intercalate (ts.map Token.lexeme)) = ts.map Token.anywhere := by
  induction ts with
  | nil => rfl
  | cons t ts ih =>
      rw [List.forall_mem_cons] at h
      cases ts with
      | nil =>
          rw [List.map_singleton, String.intercalate_singleton, h.1.words_lexeme,
            List.map_singleton]
      | cons u us =>
          rw [List.map_cons, List.map_cons, String.intercalate_cons_cons, words_blank,
            h.1.words_lexeme, ← List.map_cons, ih h.2]
          rfl

def spaced (text : String) : String :=
  " ".intercalate ((Scan.ofString text).tokens.map Token.lexeme)

theorem words_spaced (text : String) : words (spaced text) = words text :=
  words_intercalate fun _ => Scan.isLexical_of_mem

end Reckon
