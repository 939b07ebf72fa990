import Mathlib.Data.List.DropRight
import Reckon.Console.Input

namespace Reckon.Console

section Lines

/-- The lines of an input: each is ended by a line feed, and the last one perhaps by the input. -/
inductive IsLines : List UInt8 → List (List UInt8) → Prop
  | none : IsLines [] []
  | last {line} (nonempty : line ≠ []) (h : 10 ∉ line) : IsLines line [line]
  | cons {line rest ls} (h : 10 ∉ line) (later : IsLines rest ls) :
      IsLines (line ++ 10 :: rest) (line :: ls)

variable {bytes line : List UInt8} {ls : List (List UInt8)}

theorem lines_cons (b : UInt8) (bytes : List UInt8) :
    lines (b :: bytes) = if b = 10 then [] :: lines bytes else
      match lines bytes with
      | [] => [[b]]
      | line :: rest => (b :: line) :: rest := rfl

theorem lines_lineFeed (h : 10 ∉ line) (bytes : List UInt8) :
    lines (line ++ 10 :: bytes) = line :: lines bytes := by
  induction line with
  | nil => rfl
  | cons b line ih =>
      rw [List.mem_cons, not_or] at h
      rw [List.cons_append, lines_cons, if_neg (Ne.symm h.1), ih h.2]

theorem lines_last (hn : line ≠ []) (h : 10 ∉ line) : lines line = [line] := by
  induction line with
  | nil => exact absurd rfl hn
  | cons b line ih =>
      rw [List.mem_cons, not_or] at h
      rw [lines_cons, if_neg (Ne.symm h.1)]
      cases line with
      | nil => rfl
      | cons => rw [ih (List.cons_ne_nil _ _) h.2]

theorem isLines_lines (bytes : List UInt8) : IsLines bytes (lines bytes) := by
  induction bytes with
  | nil => exact .none
  | cons b bytes ih =>
      rw [lines_cons]
      generalize lines bytes = ls at ih ⊢
      split
      next hb =>
        have h : IsLines ([] ++ 10 :: bytes) ([] :: ls) := .cons List.not_mem_nil ih
        rwa [hb]
      next hb =>
        have hm : ∀ {line}, 10 ∉ line → 10 ∉ b :: line := fun h =>
          List.not_mem_cons_of_ne_of_not_mem (Ne.symm hb) h
        cases ih with
        | none => exact .last (List.cons_ne_nil _ _) (hm List.not_mem_nil)
        | last _ h => exact .last (List.cons_ne_nil _ _) (hm h)
        | @cons line rest ls h hl =>
            have hc : IsLines (b :: line ++ 10 :: rest) ((b :: line) :: ls) := .cons (hm h) hl
            exact hc

theorem isLines_iff : IsLines bytes ls ↔ lines bytes = ls := by
  constructor
  · intro h
    induction h with
    | none => rfl
    | last hn h => exact lines_last hn h
    | cons h _ ih => rw [lines_lineFeed h, ih]
  · rintro rfl
    exact isLines_lines bytes

end Lines

section Texts

def Decodes (line : List UInt8) (text : String) : Prop :=
  text.toList.flatMap String.utf8EncodeChar = line

/-- The code points with the White_Space property. -/
def whiteSpace : List Nat :=
  [0x9, 0xA, 0xB, 0xC, 0xD, 0x20, 0x85, 0xA0, 0x1680, 0x2000, 0x2001, 0x2002, 0x2003, 0x2004,
    0x2005, 0x2006, 0x2007, 0x2008, 0x2009, 0x200A, 0x2028, 0x2029, 0x202F, 0x205F, 0x3000]

/-- What is left of a text without the white space at its two ends. -/
structure Trimmed (text core : String) : Prop where
  around : ∃ before after, text.toList = before ++ core.toList ++ after ∧
    (∀ c ∈ before, c.toNat ∈ whiteSpace) ∧ ∀ c ∈ after, c.toNat ∈ whiteSpace
  first : ∀ c ∈ core.toList.head?, c.toNat ∉ whiteSpace
  last : ∀ c ∈ core.toList.getLast?, c.toNat ∉ whiteSpace

variable {line : List UInt8} {text core : String} {c : Char}

theorem decodes_iff : Decodes line text ↔ decode? line = some text := by
  have hu : text.toByteArray.data.toList = text.toList.flatMap String.utf8EncodeChar := by
    rw [← String.utf8Encode_toList, List.utf8Encode, List.data_toByteArray]
  constructor
  · rintro rfl
    have hb : ByteArray.mk (text.toList.flatMap String.utf8EncodeChar).toArray =
        text.toByteArray := by
      rw [← hu]
    rw [decode?, hb]
    exact dif_pos text.isValidUTF8
  · intro h
    rw [decode?, String.fromUTF8?] at h
    split at h
    · cases h
      exact hu.symm
    · cases h

theorem isBlank_iff : isBlank c = true ↔ c.toNat ∈ whiteSpace := by
  simp only [isBlank, whiteSpace, Bool.or_eq_true, Bool.and_eq_true, decide_eq_true_eq,
    List.mem_cons, List.not_mem_nil, or_false]
  omega

theorem dropWhile_append_of_head {p : Char → Bool} {before rest : List Char}
    (hb : ∀ c ∈ before, p c = true) (hr : ∀ c ∈ rest.head?, ¬p c = true) :
    (before ++ rest).dropWhile p = rest := by
  rw [List.dropWhile_append_of_pos hb]
  cases rest with
  | nil => rfl
  | cons c rest => exact List.dropWhile_cons_of_neg (hr c rfl)

theorem rdropWhile_append_of_last {p : Char → Bool} {rest after : List Char}
    (ha : ∀ c ∈ after, p c = true) (hr : ∀ c ∈ rest.getLast?, ¬p c = true) :
    (rest ++ after).rdropWhile p = rest := by
  rw [List.rdropWhile, List.reverse_append, dropWhile_append_of_head, List.reverse_reverse]
  · exact fun c hc => ha c (List.mem_reverse.1 hc)
  · rwa [List.head?_reverse]

theorem toList_trim (text : String) :
    (trim text).toList = (text.toList.dropWhile isBlank).rdropWhile isBlank := String.toList_ofList

theorem Trimmed.trim_eq (h : Trimmed text core) : trim text = core := by
  obtain ⟨before, after, ht, hb, ha⟩ := h.around
  simp only [← isBlank_iff] at hb ha
  apply String.toList_inj.1
  have hf := h.first
  have hl := h.last
  simp only [← isBlank_iff] at hf hl
  rw [toList_trim, ht]
  generalize core.toList = cs at hf hl
  cases cs with
  | nil =>
      have he : (before ++ [] ++ after).dropWhile isBlank = [] := by
        rw [List.append_nil, List.dropWhile_append_of_pos hb, List.dropWhile_eq_nil_iff]
        exact ha
      rw [he]
      rfl
  | cons c cs =>
      have hd : (before ++ (c :: cs ++ after)).dropWhile isBlank = c :: cs ++ after :=
        dropWhile_append_of_head hb hf
      rw [List.append_assoc, hd, rdropWhile_append_of_last ha hl]

theorem trimmed_trim (text : String) : Trimmed text (trim text) := by
  constructor
  case around =>
    refine ⟨text.toList.takeWhile isBlank, (text.toList.dropWhile isBlank).rtakeWhile isBlank, ?_,
      fun c hc => isBlank_iff.1 (List.mem_takeWhile_imp hc),
      fun c hc => isBlank_iff.1 (List.mem_rtakeWhile_imp hc)⟩
    rw [toList_trim, List.append_assoc, List.rdropWhile_append_rtakeWhile,
      List.takeWhile_append_dropWhile]
  case first =>
    intro c hc
    rw [toList_trim] at hc
    obtain ⟨rest, hr⟩ := List.rdropWhile_prefix isBlank (text.toList.dropWhile isBlank)
    have hh := List.head?_dropWhile_not isBlank text.toList
    rw [← hr, List.head?_append, hc] at hh
    exact mt isBlank_iff.2 (Bool.eq_false_iff.1 hh)
  case last =>
    intro c hc
    rw [toList_trim] at hc
    have hn : (text.toList.dropWhile isBlank).rdropWhile isBlank ≠ [] := by
      intro he
      rw [he] at hc
      cases hc
    rw [List.getLast?_eq_getLast_of_ne_nil hn, Option.mem_some] at hc
    exact hc ▸ mt isBlank_iff.2 (List.rdropWhile_last_not _ _ hn)

theorem trimmed_iff : Trimmed text core ↔ trim text = core := by
  constructor
  · exact Trimmed.trim_eq
  · rintro rfl
    exact trimmed_trim text

end Texts

end Reckon.Console
