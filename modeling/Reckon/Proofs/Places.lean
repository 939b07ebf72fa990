import Mathlib.Data.List.DropRight
import Reckon.Proofs.Segmentation

namespace Reckon

theorem utf8ByteSize_ofList_append (a b : List Char) :
    (String.ofList (a ++ b)).utf8ByteSize =
      (String.ofList a).utf8ByteSize + (String.ofList b).utf8ByteSize := by
  rw [String.ofList_append, String.utf8ByteSize_append]

theorem utf8ByteSize_ofList_singleton (c : Char) : (String.ofList [c]).utf8ByteSize = c.utf8Size := by
  rw [← String.singleton_eq_ofList, String.utf8ByteSize_singleton]

def lastLine (text : List Char) : List Char := text.rtakeWhile (· ≠ '\n')

/-- Bytes, lines and columns before a place, each counted by itself. -/
def placeAfter (text : List Char) : Position :=
  ⟨(String.ofList text).utf8ByteSize, 1 + text.count '\n', 1 + (lastLine text).length⟩

namespace Position

variable (p : Position) (text : List Char)

theorem after_lineFeed : p.after '\n' = ⟨p.offset + 1, p.line + 1, 1⟩ := rfl

theorem after_of_ne {c : Char} (h : c ≠ '\n') :
    p.after c = ⟨p.offset + c.utf8Size, p.line, p.column + 1⟩ := if_neg h

theorem line_advance : (p.advance text).line = p.line + text.count '\n' := by
  induction text generalizing p with
  | nil => rfl
  | cons c text ih =>
      rw [advance_cons, ih]
      by_cases h : c = '\n'
      · rw [h, after_lineFeed, List.count_cons_self]
        exact Nat.add_right_comm p.line 1 _
      · rw [after_of_ne p h, List.count_cons_of_ne h]

theorem column_advance (h : '\n' ∉ text) : (p.advance text).column = p.column + text.length := by
  induction text generalizing p with
  | nil => rfl
  | cons c text ih =>
      rw [List.mem_cons, not_or] at h
      rw [advance_cons, ih _ h.2, after_of_ne p (Ne.symm h.1), List.length_cons]
      exact Nat.add_right_comm p.column 1 _

/-- The place that a position has come to is the one that the text before it shows. -/
theorem start_advance_eq : start.advance text = placeAfter text := by
  induction text using List.reverseRecOn with
  | nil => rfl
  | append_singleton text c ih =>
      rw [advance_append, ih, advance_cons, advance_nil, placeAfter, placeAfter]
      have hs : (String.ofList (text ++ [c])).utf8ByteSize =
          (String.ofList text).utf8ByteSize + c.utf8Size := by
        rw [utf8ByteSize_ofList_append, utf8ByteSize_ofList_singleton]
      by_cases h : c = '\n'
      · have hl : lastLine (text ++ ['\n']) = [] :=
          List.rtakeWhile_concat_neg _ _ _ (by decide)
        rw [hs, h, after_lineFeed, hl, List.count_append, List.count_singleton_self]
        rfl
      · have hl : lastLine (text ++ [c]) = lastLine text ++ [c] :=
          List.rtakeWhile_concat_pos _ _ _ (decide_eq_true h)
        rw [hs, after_of_ne _ h, hl, List.count_append, List.count_singleton, List.length_append]
        simp [h, Nat.add_assoc]

end Position

theorem Scan.places_of_mem {text : String} {t : Token} (h : t ∈ (Scan.ofString text).toList) :
    ∃ before after, t.Stands before after text ∧
      t.position.line = 1 + before.toList.count '\n' ∧
      t.position.column = 1 + (lastLine before.toList).length := by
  rcases List.mem_append.1 h with h | h
  · obtain ⟨before, run, after, ht, -, hl, hz, hp⟩ := mem_tokens_iff.1 h
    rw [Position.start_advance_eq] at hp
    refine ⟨String.ofList before, String.ofList after, ⟨?_, ?_, by rw [hz, hl]⟩, ?_⟩
    · rw [hl, ← String.ofList_append, ← String.ofList_append, ← ht, String.ofList_toList]
    · rw [hp]
      rfl
    · rw [hp, String.toList_ofList]
      exact ⟨rfl, rfl⟩
  · have hp : (Scan.ofString text).finish.position = placeAfter text.toList :=
      Position.start_advance_eq _
    rw [List.mem_singleton.1 h]
    refine ⟨text, "", ⟨?_, ?_, rfl⟩, ?_⟩
    · exact (String.append_empty.trans String.append_empty).symm
    · rw [hp, placeAfter, String.ofList_toList]
    · rw [hp]
      exact ⟨rfl, rfl⟩

end Reckon
