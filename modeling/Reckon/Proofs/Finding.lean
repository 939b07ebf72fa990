import Reckon.Proofs.Gaps
import Reckon.Proofs.Places
import Reckon.Token.Stream

namespace Reckon

def tokensFrom (before rest : List Char) : List Token :=
  Token.ofRuns (Position.start.advance before) (runs rest)

section Front

variable {before rest run gap : List Char} {c : Char} {k : Kind}

theorem maximalRun_takeWhile {P : Char → Bool} (h : P c = true) (cs : List Char) :
    MaximalRun P [] ((c :: cs).takeWhile P) ((c :: cs).dropWhile P) where
  ne_nil := by simp [h]
  mem := fun _ hx => List.mem_takeWhile_imp hx
  left := by simp
  right := by
    intro x hx
    have hh := List.head?_dropWhile_not P (c :: cs)
    rwa [hx] at hh

theorem number_eq (text : List Char) :
    Kind.number text = (if '.' ∈ text.takeWhile isNumeral then .float else .integer,
      text.takeWhile isNumeral) := by
  have hd : ∀ c ∈ text.takeWhile Char.isDigit, c.isDigit = true := fun _ => List.mem_takeWhile_imp
  have hp : '.' ∉ text.takeWhile Char.isDigit := fun h => absurd (hd _ h) (by decide)
  have ht : text.takeWhile isNumeral =
      text.takeWhile Char.isDigit ++ (text.dropWhile Char.isDigit).takeWhile isNumeral := by
    conv_lhs => rw [← List.takeWhile_append_dropWhile (p := Char.isDigit) (l := text)]
    refine List.takeWhile_append_of_pos fun c hc => ?_
    rw [isNumeral, hd c hc, Bool.true_or]
  have hn := List.head?_dropWhile_not Char.isDigit text
  rw [Kind.number, ht]
  split
  next part h =>
    rw [h, List.takeWhile_cons_of_pos (by decide), if_pos (by simp)]
  next h =>
    have he : (text.dropWhile Char.isDigit).takeWhile isNumeral = [] := by
      cases hw : text.dropWhile Char.isDigit with
      | nil => rfl
      | cons c cs =>
          rw [hw] at hn h
          have hc : c ≠ '.' := fun hc => h cs (by rw [hc])
          refine List.takeWhile_cons_of_neg ?_
          simpa [isNumeral, hc] using hn
    rw [he, List.append_nil, if_neg hp]

theorem front_eq_some {text : List Char} (h : Kind.front? text = some (k, run)) :
    ∃ rest, text = run ++ rest ∧ Segment [] rest run k := by
  cases text with
  | nil => cases h
  | cons c cs =>
      rw [Kind.front?] at h
      split at h
      case isTrue ha =>
        cases h
        exact ⟨_, List.takeWhile_append_dropWhile.symm, .name (maximalRun_takeWhile ha cs)⟩
      case isFalse =>
        split at h
        case isTrue hn =>
          rw [number_eq] at h
          cases h
          exact ⟨_, List.takeWhile_append_dropWhile.symm, .number (maximalRun_takeWhile hn cs)⟩
        case isFalse =>
          obtain ⟨k, hk, h⟩ := Option.map_eq_some_iff.1 h
          cases h
          exact ⟨cs, rfl, .symbol (Kind.ofSymbol_eq_some_iff.1 hk)⟩

theorem front_eq_none {cs : List Char} (h : Kind.front? (c :: cs) = none) :
    c.isAlpha = false ∧ isNumeral c = false ∧ Kind.ofSymbol? c = none := by
  rw [Kind.front?] at h
  split at h
  case isTrue => cases h
  case isFalse ha =>
    split at h
    case isTrue => cases h
    case isFalse hn => exact ⟨Bool.eq_false_iff.2 ha, Bool.eq_false_iff.2 hn, Option.map_eq_none_iff.1 h⟩

theorem isIgnorable_of_spacing (h : isSpacing c = true) : IsIgnorable c := by
  have hc : c ∈ [' ', '\t', '\r', '\x0c', '\n'] := of_decide_eq_true h
  simp only [List.mem_cons, List.not_mem_nil, or_false] at hc
  rcases hc with rfl | rfl | rfl | rfl | rfl <;> exact ⟨by decide, by decide⟩

theorem Segment.lineFeed_not_mem (h : Segment before rest run k) : '\n' ∉ run := by
  intro hm
  cases h with
  | number h => exact absurd (h.mem _ hm) (by decide)
  | name h => exact absurd (h.mem _ hm) (by decide)
  | symbol h =>
      rw [List.mem_singleton] at hm
      rw [← hm] at h
      cases Kind.ofSymbol_eq_some_iff.2 h

theorem tokensFrom_run (h : IsRun [] run rest) :
    tokensFrom before (run ++ rest) =
      (Token.ofRun? (.advance .start before) run).toList ++ tokensFrom (before ++ run) rest := by
  have hr : runs (run ++ rest) = run :: runs rest := runs_of_isRun h
  rw [tokensFrom, hr, Token.ofRuns, tokensFrom, Position.advance_append]

theorem tokensFrom_segment (h : Segment [] rest run k) :
    tokensFrom before (run ++ rest) =
      ⟨k, String.ofList run, (String.ofList run).utf8ByteSize, .advance .start before⟩ ::
        tokensFrom (before ++ run) rest := by
  obtain ⟨hr, hk⟩ := segment_iff.1 h
  rw [tokensFrom_run hr, Token.ofRun?, hk]
  rfl

theorem tokensFrom_none (ha : c.isAlpha = false) (hn : isNumeral c = false)
    (hk : Kind.ofSymbol? c = none) :
    tokensFrom before (c :: rest) = tokensFrom (before ++ [c]) rest := by
  have hr : IsRun [] [c] rest := isRun_of_other ha hn
  rw [← List.singleton_append, tokensFrom_run hr, Token.ofRun?, ofRun_of_other ha hn, hk]
  rfl

theorem tokensFrom_spacing (h : ∀ c ∈ gap, isSpacing c = true) :
    tokensFrom before (gap ++ rest) = tokensFrom (before ++ gap) rest := by
  induction gap generalizing before with
  | nil => rw [List.nil_append, List.append_nil]
  | cons c gap ih =>
      rw [List.forall_mem_cons] at h
      have hc := isIgnorable_of_spacing h.1
      have hk : Kind.ofSymbol? c = none := by
        rw [← ofRun_of_other hc.not_alpha hc.not_numeral, hc.ofRun_eq_none []]
      rw [List.cons_append, tokensFrom_none hc.not_alpha hc.not_numeral hk, ih h.2,
        List.append_assoc, List.singleton_append]

end Front

namespace Reader

/-- The line that a reader counts is the one it comes to after `before`. -/
def OnLine (r : Reader) (before : List Char) : Prop :=
  ∃ lines line, before = lines ++ line ∧ '\n' ∉ line ∧
    Position.start.advance lines = ⟨r.lineStart, r.line, 1⟩

structure At (r : Reader) (before rest : List Char) : Prop where
  rest : r.rest = rest
  offset : r.offset = (Position.start.advance before).offset
  onLine : r.OnLine before

variable {r : Reader} {before rest run : List Char} {c : Char}

theorem OnLine.line_eq (h : r.OnLine before) : (Position.start.advance before).line = r.line := by
  obtain ⟨lines, line, rfl, hn, hl⟩ := h
  rw [Position.advance_append, Position.line_advance, hl, List.count_eq_zero_of_not_mem hn]
  rfl

theorem pass_of_ne (r : Reader) (h : c ≠ '\n') :
    r.pass c = { r with rest := r.rest.tail, offset := r.offset + c.utf8Size } := if_neg h

theorem At.pass (h : r.At before (c :: rest)) : (r.pass c).At (before ++ [c]) rest where
  rest := by rw [rest_pass, h.rest, List.tail_cons]
  offset := by
    have ho : (r.pass c).offset = r.offset + c.utf8Size := by
      rw [Reader.pass]
      split <;> rfl
    rw [ho, h.offset, Position.advance_append, Position.advance_cons, Position.advance_nil,
      Position.offset_after]
  onLine := by
    by_cases hc : c = '\n'
    · refine ⟨before ++ [c], [], (List.append_nil _).symm, List.not_mem_nil, ?_⟩
      rw [hc, Position.advance_append, Position.advance_cons, Position.advance_nil,
        Position.after_lineFeed, h.onLine.line_eq, ← h.offset]
      rfl
    · obtain ⟨lines, line, rfl, hn, hl⟩ := h.onLine
      refine ⟨lines, line ++ [c], List.append_assoc .., ?_, by rw [hl, pass_of_ne r hc]⟩
      simp [hn, Ne.symm hc]

theorem At.passAll (h : r.At before (run ++ rest)) : (r.passAll run).At (before ++ run) rest := by
  induction run generalizing r before with
  | nil => rwa [List.append_nil]
  | cons c run ih =>
      have hp := ih h.pass
      rwa [List.append_assoc, List.singleton_append] at hp

theorem OnLine.passAll (h : r.OnLine before) (hn : '\n' ∉ run) : (r.passAll run).OnLine before := by
  induction run generalizing r with
  | nil => exact h
  | cons c run ih =>
      rw [List.mem_cons, not_or] at hn
      refine ih (r := r.pass c) ?_ hn.2
      rwa [pass_of_ne r (Ne.symm hn.1)]

theorem At.skip (h : r.At before rest) :
    r.skip.At (before ++ rest.takeWhile isSpacing) (rest.dropWhile isSpacing) := by
  rw [Reader.skip, h.rest]
  refine At.passAll ?_
  rwa [List.takeWhile_append_dropWhile]

/-- What a reader comes upon in a text, after `before`. -/
inductive Finds (before : List Char) : List Char → Option (Nat × Finding) × Reader → Prop
  | finish {gap r} (spacing : ∀ c ∈ gap, isSpacing c = true) (reached : r.At (before ++ gap) []) :
      Finds before gap (none, r)
  | token {gap run rest k r} (spacing : ∀ c ∈ gap, isSpacing c = true)
      (segment : Segment [] rest run k) (onLine : r.OnLine (before ++ gap))
      (reached : r.At (before ++ gap ++ run) rest) :
      Finds before (gap ++ (run ++ rest))
        (some ((Position.start.advance (before ++ gap)).offset, .token k run), r)
  | unknown {gap c rest r} (spacing : ∀ c ∈ gap, isSpacing c = true) (alpha : c.isAlpha = false)
      (numeral : isNumeral c = false) (symbol : Kind.ofSymbol? c = none)
      (onLine : r.OnLine (before ++ gap)) (reached : r.At (before ++ gap ++ [c]) rest) :
      Finds before (gap ++ c :: rest)
        (some ((Position.start.advance (before ++ gap)).offset, .unknown c), r)

theorem At.finds (h : r.At before rest) : Finds before rest r.next := by
  have hs := h.skip
  have hg : ∀ c ∈ rest.takeWhile isSpacing, isSpacing c = true := fun _ => List.mem_takeWhile_imp
  have ht := List.takeWhile_append_dropWhile (p := isSpacing) (l := rest)
  have hh := List.head?_dropWhile_not isSpacing rest
  rw [Reader.next, hs.rest]
  generalize rest.takeWhile isSpacing = gap at hs hg ht
  generalize rest.dropWhile isSpacing = next at hs ht hh
  subst ht
  cases next with
  | nil =>
      rw [List.append_nil]
      exact .finish hg hs
  | cons c cs =>
      cases hf : Kind.front? (c :: cs) with
      | some found =>
          obtain ⟨k, run⟩ := found
          obtain ⟨rest, he, hk⟩ := front_eq_some hf
          simp only [hf, hs.offset]
          rw [he] at hs ⊢
          exact .token hg hk (hs.onLine.passAll hk.lineFeed_not_mem) hs.passAll
      | none =>
          obtain ⟨ha, hn, hk⟩ := front_eq_none hf
          simp only [hf, hs.offset]
          have hc : c ≠ '\n' := by
            rintro rfl
            cases hh
          refine .unknown hg ha hn hk ?_ hs.pass
          rw [pass_of_ne _ hc]
          exact hs.onLine

end Reader

end Reckon
