import Reckon.Proofs.Words

namespace Reckon

/-- A stretch of characters of a class, with none of them next to it. -/
structure MaximalRun (P : Char → Bool) (before run after : List Char) : Prop where
  ne_nil : run ≠ []
  mem : ∀ c ∈ run, P c = true
  left : ∀ c ∈ before.getLast?, P c = false
  right : ∀ c ∈ after.head?, P c = false

/-- The stretches of a text that are tokens, and their kinds. -/
inductive Segment (before after : List Char) : List Char → Kind → Prop
  | number {run} (h : MaximalRun (fun c => c.isDigit || c == '.') before run after) :
      Segment before after run (if '.' ∈ run then .float else .integer)
  | name {run} (h : MaximalRun Char.isAlpha before run after) :
      Segment before after run .identifier
  | symbol {c k} (h : (c, k) ∈ Kind.symbols) : Segment before after [c] k

structure IsRun (before run after : List Char) : Prop where
  ne_nil : run ≠ []
  chain : run.IsChain fun x y => joins x y
  left : ∀ x ∈ before.getLast?, ∀ y ∈ run.head?, joins x y = false
  right : ∀ x ∈ run.getLast?, ∀ y ∈ after.head?, joins x y = false

theorem joins_comm (x y : Char) : joins x y = joins y x := by
  rw [joins, joins, Bool.and_comm, Bool.and_comm (isNumeral x)]

theorem le_of_isAlpha {c : Char} (h : c.isAlpha = true) : 'A'.val ≤ c.val := by
  rcases Bool.or_eq_true_iff.1 h with h | h
  · exact (of_decide_eq_true h).1
  · have hc : 'a'.val ≤ c.val := of_decide_eq_true (Bool.and_eq_true_iff.1 h).1
    exact UInt32.le_trans (by decide) hc

theorem not_numeral_of_alpha {c : Char} (h : c.isAlpha = true) : isNumeral c = false := by
  have hd : c ≠ '.' := by
    rintro rfl
    cases h
  have hn : ¬c.isDigit = true := by
    intro hn
    have hc : c.val ≤ '9'.val := of_decide_eq_true (Bool.and_eq_true_iff.1 hn).2
    exact absurd (UInt32.le_trans (le_of_isAlpha h) hc) (by decide)
  simp [isNumeral, hd, hn]

theorem joins_of_numeral {x y : Char} (h : isNumeral x = true) : joins x y = isNumeral y := by
  cases ha : x.isAlpha with
  | true =>
      rw [not_numeral_of_alpha ha] at h
      cases h
  | false => rw [joins, ha, h, Bool.false_and, Bool.false_or, Bool.true_and]

theorem joins_of_alpha {x y : Char} (h : x.isAlpha = true) : joins x y = y.isAlpha := by
  rw [joins, h, not_numeral_of_alpha h, Bool.false_and, Bool.or_false, Bool.true_and]

section Runs

variable {P : Char → Bool} {before run after : List Char} {k : Kind}

theorem MaximalRun.isRun (hP : ∀ x y, P x = true → joins x y = P y)
    (h : MaximalRun P before run after) : IsRun before run after where
  ne_nil := h.ne_nil
  chain := by
    refine List.Pairwise.isChain (List.pairwise_iff_forall_sublist.2 ?_)
    intro x y hs
    rw [hP x y (h.mem x (hs.subset (by simp)))]
    exact h.mem y (hs.subset (by simp))
  left := by
    intro x hx y hy
    rw [joins_comm, hP y x (h.mem y (List.mem_of_mem_head? hy))]
    exact h.left x hx
  right := by
    intro x hx y hy
    rw [hP x y (h.mem x (List.mem_of_mem_getLast? hx))]
    exact h.right y hy

theorem IsRun.maximalRun (hP : ∀ x y, P x = true → joins x y = P y)
    (h : IsRun before run after) (hc : ∃ c ∈ run.head?, P c = true) :
    MaximalRun P before run after := by
  have hm : ∀ c ∈ run, P c = true := by
    obtain ⟨c, hc, hp⟩ := hc
    have hn := h.chain
    clear h
    induction run generalizing c with
    | nil => cases hc
    | cons d ds ih =>
        obtain rfl : d = c := by simpa using hc
        rw [List.forall_mem_cons]
        refine ⟨hp, ?_⟩
        cases ds with
        | nil => simp
        | cons e es =>
            obtain ⟨hj, hn⟩ := List.isChain_cons_cons.1 hn
            exact ih e rfl (by rwa [hP d e hp] at hj) hn
  obtain ⟨c, hc, hp⟩ := hc
  refine ⟨h.ne_nil, hm, ?_, ?_⟩
  · intro x hx
    rw [← hP c x hp, joins_comm]
    exact h.left x hx c hc
  · intro y hy
    have hl := List.getLast?_eq_getLast_of_ne_nil h.ne_nil
    rw [← hP _ y (hm _ (List.getLast_mem h.ne_nil))]
    exact h.right _ hl y hy

variable {text : List Char} {rs rs' : List (List Char)}

theorem runs_of_isRun (h : IsRun before run after) :
    runs (before ++ run ++ after) = runs before ++ run :: runs after := by
  have hl : (before ++ run).getLast? = run.getLast? := by
    rw [List.getLast?_append, List.getLast?_eq_getLast_of_ne_nil h.ne_nil, Option.some_or]
  have hr : runs run = [run] := List.splitBy_of_isChain h.ne_nil h.chain
  calc runs (before ++ run ++ after)
      = runs (before ++ run) ++ runs after := List.splitBy_append (hl ▸ h.right)
    _ = runs before ++ runs run ++ runs after := congrArg (· ++ _) (List.splitBy_append h.left)
    _ = runs before ++ run :: runs after := by
        rw [hr, List.append_assoc, List.singleton_append]

theorem not_joins_of_runs (h : runs text = rs ++ rs') :
    ∀ x ∈ rs.flatten.getLast?, ∀ y ∈ rs'.flatten.head?, joins x y = false := by
  obtain ⟨-, -, -, hj⟩ := List.splitBy_eq_iff.1 h
  obtain ⟨-, -, hj⟩ := List.isChain_append.1 hj
  rcases rs.eq_nil_or_concat with rfl | ⟨rs, a, rfl⟩
  · simp
  · cases rs' with
    | nil => simp
    | cons b rs' =>
        obtain ⟨ha, hb, hj⟩ := hj a (by simp) b rfl
        simpa [List.getLast?_append, List.head?_append, List.getLast?_eq_getLast_of_ne_nil ha,
          List.head?_eq_some_head hb] using hj

theorem isRun_of_runs (h : runs text = rs ++ run :: rs') :
    text = rs.flatten ++ run ++ rs'.flatten ∧ IsRun rs.flatten run rs'.flatten := by
  have hm : run ∈ runs text := by simp [h]
  have hn : run ≠ [] := List.ne_nil_of_mem_splitBy hm
  have hl := not_joins_of_runs h
  have hr : runs text = (rs ++ [run]) ++ rs' := by simp [h]
  have hr := not_joins_of_runs hr
  constructor
  · rw [(runs_of_append h).1, List.flatten_cons, List.append_assoc]
  · refine ⟨hn, List.isChain_of_mem_splitBy hm, ?_, ?_⟩
    · simpa [List.head?_append, List.head?_eq_some_head hn] using hl
    · simpa [List.getLast?_append, List.getLast?_eq_getLast_of_ne_nil hn] using hr

theorem ofRun_of_numeral {c : Char} {cs : List Char} (h : isNumeral c = true) :
    Kind.ofRun? (c :: cs) = some (if '.' ∈ c :: cs then .float else .integer) := by
  have ha : c.isAlpha = false := by
    rw [Bool.eq_false_iff]
    intro ha
    rw [not_numeral_of_alpha ha] at h
    cases h
  rw [Kind.ofRun?, ha, if_neg Bool.false_ne_true, if_pos h]

theorem ofRun_of_alpha {c : Char} {cs : List Char} (h : c.isAlpha = true) :
    Kind.ofRun? (c :: cs) = some .identifier := by
  rw [Kind.ofRun?, if_pos h]

theorem ofRun_of_other {c : Char} {cs : List Char} (ha : c.isAlpha = false)
    (hn : isNumeral c = false) : Kind.ofRun? (c :: cs) = Kind.ofSymbol? c := by
  rw [Kind.ofRun?, ha, hn, if_neg Bool.false_ne_true, if_neg Bool.false_ne_true]

theorem isRun_of_other {c : Char} (ha : c.isAlpha = false) (hn : isNumeral c = false) :
    IsRun before [c] after where
  ne_nil := List.cons_ne_nil c []
  chain := List.isChain_singleton c
  left := by simp [joins, ha, hn]
  right := by simp [joins, ha, hn]

/-- The token stretches are the runs that have a kind. -/
theorem segment_iff :
    Segment before after run k ↔ IsRun before run after ∧ Kind.ofRun? run = some k := by
  constructor
  · intro h
    cases h with
    | number h =>
        refine ⟨h.isRun fun _ _ => joins_of_numeral, ?_⟩
        obtain ⟨c, cs, rfl⟩ := List.exists_cons_of_ne_nil h.ne_nil
        exact ofRun_of_numeral (h.mem c List.mem_cons_self)
    | name h =>
        refine ⟨h.isRun fun _ _ => joins_of_alpha, ?_⟩
        obtain ⟨c, cs, rfl⟩ := List.exists_cons_of_ne_nil h.ne_nil
        exact ofRun_of_alpha (h.mem c List.mem_cons_self)
    | symbol h =>
        obtain ⟨ha, hn⟩ := Kind.not_joins_of_mem_symbols _ h
        exact ⟨isRun_of_other ha hn, (ofRun_of_other ha hn).trans (Kind.ofSymbol_eq_some_iff.2 h)⟩
  · rintro ⟨h, hk⟩
    obtain ⟨c, cs, rfl⟩ := List.exists_cons_of_ne_nil h.ne_nil
    cases ha : c.isAlpha with
    | true =>
        rw [ofRun_of_alpha ha, Option.some.injEq] at hk
        subst hk
        exact .name (h.maximalRun (fun _ _ => joins_of_alpha) ⟨c, rfl, ha⟩)
    | false =>
        cases hn : isNumeral c with
        | true =>
            rw [ofRun_of_numeral hn, Option.some.injEq] at hk
            subst hk
            exact .number (h.maximalRun (fun _ _ => joins_of_numeral) ⟨c, rfl, hn⟩)
        | false =>
            rw [ofRun_of_other ha hn] at hk
            cases cs with
            | nil => exact .symbol (Kind.ofSymbol_eq_some_iff.1 hk)
            | cons c' cs =>
                have hj := (List.isChain_cons_cons.1 h.chain).1
                simp [joins, ha, hn] at hj

theorem Segment.isLexical (h : Segment before after run k) :
    (Token.word k (String.ofList run)).IsLexical := by
  obtain ⟨hr, hk⟩ := segment_iff.1 h
  constructor
  · rw [Token.word, String.toList_ofList]
    exact List.splitBy_of_isChain hr.ne_nil hr.chain
  · rw [Token.word, String.toList_ofList, hk]

theorem words_run (h : IsRun before run after) :
    words (String.ofList run) = (wordOfRun? run).toList := by
  have hr : runs run = [run] := List.splitBy_of_isChain h.ne_nil h.chain
  rw [words_eq_filterMap, String.toList_ofList, hr]
  cases h : wordOfRun? run <;> simp [h]

end Runs

namespace Position

theorem offset_after (p : Position) (c : Char) : (p.after c).offset = p.offset + c.utf8Size := by
  rw [after]
  split <;> rfl

theorem offset_advance (p : Position) (text : List Char) :
    (p.advance text).offset = p.offset + (String.ofList text).utf8ByteSize := by
  induction text generalizing p with
  | nil => rfl
  | cons c text ih =>
      have hs : String.ofList (c :: text) = String.singleton c ++ String.ofList text := by
        rw [String.singleton_eq_ofList, ← String.ofList_append, List.singleton_append]
      rw [advance_cons, ih, offset_after, hs, String.utf8ByteSize_append,
        String.utf8ByteSize_singleton, Nat.add_assoc]

theorem offset_start (text : List Char) :
    (start.advance text).offset = (String.ofList text).utf8ByteSize := by
  rw [offset_advance]
  exact Nat.zero_add _

theorem offset_le_advance (p : Position) (text : List Char) :
    p.offset ≤ (p.advance text).offset := by
  rw [offset_advance]
  exact Nat.le_add_right _ _

theorem offset_lt_advance (p : Position) (c : Char) (cs : List Char) :
    p.offset < (p.advance (c :: cs)).offset := by
  have h := offset_le_advance (p.after c) cs
  rw [offset_after] at h
  rw [advance_cons]
  exact Nat.lt_of_lt_of_le (Nat.lt_add_of_pos_right c.utf8Size_pos) h

end Position

theorem Token.mem_ofRuns_iff {p : Position} {rs : List (List Char)} {t : Token} :
    t ∈ Token.ofRuns p rs ↔
      ∃ rs₁ run rs₂, rs = rs₁ ++ run :: rs₂ ∧ ofRun? (p.advance rs₁.flatten) run = some t := by
  induction rs generalizing p with
  | nil => simp [ofRuns]
  | cons run rs ih =>
      rw [ofRuns, List.mem_append, Option.mem_toList, ih]
      constructor
      · rintro (h | ⟨rs₁, run', rs₂, rfl, h⟩)
        · exact ⟨[], run, rs, rfl, h⟩
        · refine ⟨run :: rs₁, run', rs₂, rfl, ?_⟩
          rwa [List.flatten_cons, Position.advance_append]
      · rintro ⟨rs₁, run', rs₂, hr, h⟩
        cases rs₁ with
        | nil =>
            cases hr
            exact .inl h
        | cons r rs₁ =>
            cases hr
            rw [List.flatten_cons, Position.advance_append] at h
            exact .inr ⟨rs₁, run', rs₂, rfl, h⟩

theorem Token.le_offset_of_mem_ofRuns {p : Position} {rs : List (List Char)} {t : Token}
    (h : t ∈ Token.ofRuns p rs) : p.offset ≤ t.position.offset := by
  obtain ⟨rs₁, run, -, -, h⟩ := mem_ofRuns_iff.1 h
  obtain ⟨k, -, rfl⟩ := Option.map_eq_some_iff.1 h
  exact p.offset_le_advance _

theorem Token.pairwise_ofRuns (p : Position) (rs : List (List Char)) :
    (Token.ofRuns p rs).Pairwise fun t u => t.stop ≤ u.position.offset := by
  induction rs generalizing p with
  | nil => exact .nil
  | cons run rs ih =>
      rw [ofRuns, List.pairwise_append]
      refine ⟨?_, ih _, ?_⟩
      · cases Token.ofRun? p run <;> simp
      · intro t ht u hu
        obtain ⟨k, hk, rfl⟩ := Option.map_eq_some_iff.1 (Option.mem_toList.1 ht)
        rw [stop, ← Position.offset_advance]
        exact le_offset_of_mem_ofRuns hu

theorem Scan.mem_tokens_iff {text : String} {t : Token} :
    t ∈ (Scan.ofString text).tokens ↔ ∃ before run after : List Char,
      text.toList = before ++ run ++ after ∧ Segment before after run t.kind ∧
        t.lexeme = String.ofList run ∧ t.size = (String.ofList run).utf8ByteSize ∧
          t.position = Position.start.advance before := by
  refine Token.mem_ofRuns_iff.trans ?_
  constructor
  · rintro ⟨rs, run, rs', hr, h⟩
    obtain ⟨k, hk, rfl⟩ := Option.map_eq_some_iff.1 h
    obtain ⟨ht, hi⟩ := isRun_of_runs hr
    exact ⟨rs.flatten, run, rs'.flatten, ht, segment_iff.2 ⟨hi, hk⟩, rfl, rfl, rfl⟩
  · rintro ⟨before, run, after, ht, hs, hl, hz, hp⟩
    obtain ⟨hi, hk⟩ := segment_iff.1 hs
    refine ⟨runs before, run, runs after, by rw [ht, runs_of_isRun hi], ?_⟩
    rw [runs, List.flatten_splitBy, Token.ofRun?, hk, Option.map_some, ← hl, ← hp, hl, ← hz]
    cases t
    cases hl
    rfl

structure Token.Stands (t : Token) (before after text : String) : Prop where
  text : text = before ++ t.lexeme ++ after
  offset : t.position.offset = before.utf8ByteSize
  size : t.size = t.lexeme.utf8ByteSize

namespace Scan

variable {text before run after : String} {t u : Token} {k : Kind}

theorem exists_stands_of_mem (h : t ∈ (Scan.ofString text).tokens) :
    ∃ before after, t.Stands before after text ∧
      Segment before.toList after.toList t.lexeme.toList t.kind := by
  obtain ⟨before, run, after, ht, hs, hl, hz, hp⟩ := mem_tokens_iff.1 h
  refine ⟨String.ofList before, String.ofList after, ⟨?_, ?_, by rw [hz, hl]⟩, ?_⟩
  · rw [hl, ← String.ofList_append, ← String.ofList_append, ← ht, String.ofList_toList]
  · rw [hp, Position.offset_start]
  · rwa [hl, String.toList_ofList, String.toList_ofList, String.toList_ofList]

theorem exists_mem_of_segment (ht : text = before ++ run ++ after)
    (hs : Segment before.toList after.toList run.toList k) :
    ∃ t ∈ (Scan.ofString text).tokens,
      t.lexeme = run ∧ t.kind = k ∧ t.Stands before after text := by
  have hl : text.toList = before.toList ++ run.toList ++ after.toList := by
    rw [ht, String.toList_append, String.toList_append]
  have hp : (Position.start.advance before.toList).offset = before.utf8ByteSize := by
    rw [Position.offset_start, String.ofList_toList]
  refine ⟨⟨k, run, run.utf8ByteSize, .advance .start before.toList⟩, ?_, rfl, rfl, ht, hp, rfl⟩
  refine mem_tokens_iff.2 ⟨_, _, _, hl, hs, ?_, ?_, rfl⟩
  · rw [String.ofList_toList]
  · rw [String.ofList_toList]

theorem offset_lt_stop (h : t ∈ (Scan.ofString text).tokens) : t.position.offset < t.stop := by
  obtain ⟨before, after, ht, hs⟩ := exists_stands_of_mem h
  have hne : t.size ≠ 0 := by
    rw [ht.size]
    exact String.utf8ByteSize_eq_zero_iff.not.2 (isLexical_of_mem h).lexeme_ne_empty
  exact Nat.lt_add_of_pos_right (Nat.pos_of_ne_zero hne)

theorem pairwise_tokens (text : String) :
    (Scan.ofString text).tokens.Pairwise fun t u => t.stop ≤ u.position.offset :=
  Token.pairwise_ofRuns _ _

theorem pairwise_before (text : String) :
    (Scan.ofString text).tokens.Pairwise fun t u => t.position.offset < u.position.offset :=
  (pairwise_tokens text).imp_of_mem fun ht _ h => Nat.lt_of_lt_of_le (offset_lt_stop ht) h

theorem eq_of_offset_eq (ht : t ∈ (Scan.ofString text).tokens)
    (hu : u ∈ (Scan.ofString text).tokens) (h : t.position.offset = u.position.offset) : t = u := by
  by_contra hne
  have hp := (pairwise_before text).imp Nat.ne_of_lt
  have : Std.Symm fun t u : Token => t.position.offset ≠ u.position.offset := ⟨fun _ _ => Ne.symm⟩
  exact hp.forall ht hu hne h

end Scan

/-- Tokenizing cuts a text into its maximal runs. -/
theorem scan_is_segmentation (text : String) :
    (∀ t ∈ (Scan.ofString text).tokens, ∃ before after, t.Stands before after text ∧
      Segment before.toList after.toList t.lexeme.toList t.kind) ∧
      (∀ before run after k, text = before ++ run ++ after →
        Segment before.toList after.toList run.toList k →
        ∃! t, t ∈ (Scan.ofString text).tokens ∧ t.lexeme = run ∧ t.kind = k ∧
          t.Stands before after text) ∧
      (Scan.ofString text).tokens.Pairwise
        (fun t u => 0 < t.size ∧ t.position.offset + t.size ≤ u.position.offset) ∧
      ∃ finish, (Scan.ofString text).toList = (Scan.ofString text).tokens ++ [finish] ∧
        finish.kind = .endOfInput ∧ finish.lexeme = "" ∧ finish.Stands text "" text ∧
        ∀ t ∈ (Scan.ofString text).tokens, t.kind ≠ .endOfInput := by
  refine ⟨fun t => Scan.exists_stands_of_mem, ?_, ?_, ?_⟩
  · intro before run after k ht hs
    obtain ⟨t, hm, hl, hk, hp⟩ := Scan.exists_mem_of_segment ht hs
    refine ⟨t, ⟨hm, hl, hk, hp⟩, ?_⟩
    rintro u ⟨hu, -, -, hpu⟩
    exact Scan.eq_of_offset_eq hu hm (hpu.offset.trans hp.offset.symm)
  · refine (Scan.pairwise_tokens text).imp_of_mem fun ht _ h => ⟨?_, h⟩
    exact Nat.pos_of_lt_add_right (Scan.offset_lt_stop ht)
  · refine ⟨(Scan.ofString text).finish, rfl, rfl, rfl, ⟨?_, ?_, rfl⟩, Scan.ne_end_of_mem text⟩
    · exact (String.append_empty.trans String.append_empty).symm
    · show (Position.start.advance text.toList).offset = _
      rw [Position.offset_start, String.ofList_toList]

theorem segmentation_number_before_symbol :
    Segment "é".toList "%sin".toList "1.5".toList .float ∧
      Segment "é1.5".toList "sin".toList "%".toList .percent ∧
      (∃! t, t ∈ (Scan.ofString "é1.5%sin").tokens ∧ t.lexeme = "1.5" ∧ t.kind = .float ∧
        t.Stands "é" "%sin" "é1.5%sin") ∧
      ∃! t, t ∈ (Scan.ofString "é1.5%sin").tokens ∧ t.lexeme = "%" ∧ t.kind = .percent ∧
        t.Stands "é1.5" "sin" "é1.5%sin" := by
  have hn : Segment "é".toList "%sin".toList "1.5".toList .float :=
    .number ⟨by simp, by simp, by simp, by simp⟩
  have hs : Segment "é1.5".toList "sin".toList "%".toList .percent := .symbol (by decide)
  have h := (scan_is_segmentation "é1.5%sin").2.1
  exact ⟨hn, hs, h "é" "1.5" "%sin" .float (by decide) hn,
    h "é1.5" "%" "sin" .percent (by decide) hs⟩

end Reckon
