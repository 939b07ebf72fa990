import Reckon.Proofs.Finding
import Reckon.Token.Cursor

namespace Reckon

section Cutting

variable {a b c : List Char}

theorem cutAt_append : cutAt? (a ++ b) (String.ofList a).utf8ByteSize = some (a, b) := by
  induction a with
  | nil => cases b <;> rfl
  | cons x a ih =>
      have hs : (String.ofList (x :: a)).utf8ByteSize =
          x.utf8Size + (String.ofList a).utf8ByteSize := by
        rw [← List.singleton_append, utf8ByteSize_ofList_append, utf8ByteSize_ofList_singleton]
      have hx := x.utf8Size_pos
      obtain ⟨n, hn⟩ := Nat.exists_eq_add_of_lt (Nat.add_pos_left hx (String.ofList a).utf8ByteSize)
      rw [Nat.zero_add] at hn
      have hle : x.utf8Size ≤ n + 1 := by omega
      have hsub : n + 1 - x.utf8Size = (String.ofList a).utf8ByteSize := by omega
      rw [hs, hn, List.cons_append, cutAt?, if_pos hle, hsub, ih]
      rfl

theorem between_append :
    between? (a ++ b ++ c) (String.ofList a).utf8ByteSize (String.ofList (a ++ b)).utf8ByteSize =
      some b := by
  rw [between?, List.append_assoc, cutAt_append, utf8ByteSize_ofList_append]
  simp [cutAt_append]

end Cutting

theorem Cursor.atEnd_eq {c : Cursor} (h : ∀ t ∈ c.rest, t.kind ≠ .endOfInput) :
    c.atEnd = decide (c.peek.kind = .endOfInput) := by
  cases hr : c.rest with
  | nil => simp [atEnd, peek, hr, Token.finish]
  | cons t ts =>
      have ht := h t (by simp [hr])
      simp [atEnd, peek, hr, ht]

namespace Stream

def Told (s : Stream) (before : List Char) : Prop :=
  ∃ told later, before = told ++ later ∧ Position.start.advance told = s.last

structure At (s : Stream) (before rest : List Char) : Prop where
  source : s.source.toList = before ++ rest
  reader : s.reader.At before rest
  told : s.Told before

variable {s s' : Stream} {before rest : List Char} {t : Token}

theorem Told.append (h : s.Told before) (more : List Char) : s.Told (before ++ more) := by
  obtain ⟨told, later, rfl, hl⟩ := h
  exact ⟨told, later ++ more, List.append_assoc .., hl⟩

theorem locate_of_base {base : Position} {told later : List Char}
    (hs : s.source.toList = told ++ later ++ rest) (hb : Position.start.advance told = base)
    (hn : '\n' ∉ later)
    (hd : (if s.last.line ≠ s.reader.line ∨
        (Position.start.advance (told ++ later)).offset < s.last.offset then
          ⟨s.reader.lineStart, s.reader.line, 1⟩ else s.last) = base) :
    s.locate (Position.start.advance (told ++ later)).offset =
      Position.start.advance (told ++ later) := by
  have ho : base.offset = (String.ofList told).utf8ByteSize := by
    rw [← hb, Position.offset_start]
  have hm := between_append (a := told) (b := later) (c := rest)
  rw [← hs, ← ho, ← Position.offset_start] at hm
  have hl : (Position.start.advance (told ++ later)).line = base.line := by
    rw [Position.advance_append, hb, Position.line_advance, List.count_eq_zero_of_not_mem hn]
    rfl
  have hc : (Position.start.advance (told ++ later)).column = base.column + later.length := by
    rw [Position.advance_append, hb, Position.column_advance _ _ hn]
  simp only [locate, hd, hm, Option.map_some, Option.getD_some]
  rw [← hl, ← hc]

/-- Counting on from the last place, or from the start of the line, comes to the place itself. -/
theorem Told.locate_eq (h : s.Told before) (hs : s.source.toList = before ++ rest)
    (hr : s.reader.OnLine before) :
    s.locate (Position.start.advance before).offset = Position.start.advance before := by
  by_cases hd : s.last.line ≠ s.reader.line ∨
      (Position.start.advance before).offset < s.last.offset
  · obtain ⟨lines, line, rfl, hn, hl⟩ := hr
    exact locate_of_base hs hl hn (if_pos hd)
  · obtain ⟨told, later, rfl, hl⟩ := h
    refine locate_of_base hs hl ?_ (if_neg hd)
    rw [not_or, not_not] at hd
    have hline := hr.line_eq
    rw [Position.advance_append, Position.line_advance, hl, hd.1] at hline
    rw [← List.count_eq_zero]
    omega

theorem At.keeping {peeked : Option Token} {done : Bool} (h : s.At before rest) :
    { s with peeked, done }.At before rest := ⟨h.1, h.2, h.3⟩

theorem At.marked {gap run : List Char} {r : Reader} (h : s.At before (gap ++ (run ++ rest)))
    (hl : r.OnLine (before ++ gap)) (hr : r.At (before ++ gap ++ run) rest) :
    (s.reading r).locate (Position.start.advance (before ++ gap)).offset =
        Position.start.advance (before ++ gap) ∧
      ((s.reading r).mark (Position.start.advance (before ++ gap)).offset).At
        (before ++ gap ++ run) rest := by
  have hs : s.source.toList = before ++ gap ++ (run ++ rest) := by
    rw [h.source, List.append_assoc]
  have ht : (s.reading r).Told (before ++ gap) := h.told.append gap
  have hp := ht.locate_eq hs hl
  refine ⟨hp, ?_, hr, before ++ gap, run, rfl, hp.symm⟩
  rw [List.append_assoc (before ++ gap)]
  exact hs

structure Gives (s : Stream) (ts : List Token) (t : Token) (s' : Stream) : Prop where
  token : t = ts.headD (.finish (.advance .start s.source.toList))
  reached : ∃ before rest, s'.At before rest ∧ tokensFrom before rest = ts.tail
  source : s'.source = s.source
  peeked : s'.peeked = s.peeked
  done : s'.done = s.done

theorem At.scan (h : s.At before rest) : s.Gives (tokensFrom before rest) s.scan.1 s.scan.2 := by
  induction s using scan.induct generalizing before rest with
  | case1 s r hn =>
      have hf := h.reader.finds
      rw [hn] at hf
      cases hf with
      | finish hg hr =>
          have hs := h.source
          have hz : s.source.utf8ByteSize = (Position.start.advance (before ++ rest)).offset := by
            rw [Position.offset_start, ← hs, String.ofList_toList]
          have ha : s.At before (rest ++ ([] ++ [])) := by rwa [List.append_nil, List.append_nil]
          have hr' : r.At (before ++ rest ++ []) [] := by rwa [List.append_nil]
          obtain ⟨hp, hm⟩ := ha.marked hr.onLine hr'
          have ht : tokensFrom before (rest ++ []) = tokensFrom (before ++ rest) [] :=
            tokensFrom_spacing hg
          rw [List.append_nil] at ht hm
          rw [scan_finish hn, hz, ht]
          refine ⟨?_, ⟨_, _, hm, rfl⟩, rfl, rfl, rfl⟩
          rw [hs, ← hp]
          rfl
  | case2 s offset k run r hn =>
      have hf := h.reader.finds
      rw [hn] at hf
      cases hf with
      | token hg hk hl hr =>
          obtain ⟨hp, hm⟩ := h.marked hl hr
          rw [scan_token hn, tokensFrom_spacing hg, tokensFrom_segment hk]
          refine ⟨?_, ⟨_, _, hm, rfl⟩, rfl, rfl, rfl⟩
          rw [List.headD_cons, ← hp]
          rfl
  | case3 s offset c r hn ih =>
      have hf := h.reader.finds
      rw [hn] at hf
      cases hf with
      | @unknown gap _ rest _ hg ha hnum hk hl hr =>
          have h' : s.At before (gap ++ ([c] ++ rest)) := h
          obtain ⟨-, hm⟩ := h'.marked hl hr
          have hi := ih hm
          rw [scan_unknown hn, tokensFrom_spacing hg, tokensFrom_none ha hnum hk]
          exact ⟨hi.token, hi.reached, hi.source, hi.peeked, hi.done⟩

/-- A stream and a cursor over all tokens that stand at the same place. A token that the stream has
looked at is still in front of the cursor. -/
structure Shows (s : Stream) (c : Cursor) : Prop where
  source : s.source = c.source
  stop : c.stop = .advance .start c.source.toList
  written : ∀ t ∈ c.rest, t.kind ≠ .endOfInput
  done : s.done = c.done
  peeked : ∀ t ∈ s.peeked, t = c.peek
  reached : ∃ before rest, s.At before rest ∧
    tokensFrom before rest = if s.peeked.isSome then c.rest.tail else c.rest

variable {c : Cursor}

theorem shows_ofString (text : String) : (ofString text).Shows (.ofString text) where
  source := rfl
  stop := rfl
  written := Scan.ne_end_of_mem text
  done := rfl
  peeked := by
    intro t h
    cases h
  reached := by
    refine ⟨[], text.toList, ⟨rfl, ⟨rfl, rfl, ?_⟩, ?_⟩, rfl⟩
    · exact ⟨[], [], rfl, List.not_mem_nil, rfl⟩
    · exact ⟨[], [], rfl, rfl⟩

theorem Shows.scan (h : s.Shows c) (hp : s.peeked = none) :
    s.scan.1 = c.peek ∧ s.scan.2.Shows c.next.2 := by
  obtain ⟨before, rest, ha, hr⟩ := h.reached
  rw [hp] at hr
  have hg := ha.scan
  rw [hr] at hg
  have hn : s.scan.2.peeked = none := hg.peeked.trans hp
  constructor
  · rw [hg.token, h.source, ← h.stop]
    rfl
  · refine ⟨hg.source.trans h.source, h.stop, ?_, hg.done.trans h.done, ?_, ?_⟩
    · exact fun t ht => h.written t (List.mem_of_mem_tail ht)
    · rw [hn]
      exact fun _ ht => nomatch ht
    · rw [hn]
      exact hg.reached

theorem Shows.peek (h : s.Shows c) : s.peek.1 = c.peek ∧ s.peek.2.Shows c := by
  unfold Stream.peek
  split
  case h_1 t ht => exact ⟨h.peeked t ht, h⟩
  case h_2 hp =>
    obtain ⟨ht, hs⟩ := h.scan hp
    refine ⟨ht, hs.source, h.stop, h.written, hs.done, ?_, ?_⟩
    · intro t hm
      rw [← ht]
      exact (Option.some.inj hm).symm
    · obtain ⟨before, rest, ha, hr⟩ := hs.reached
      have hn : s.scan.2.peeked = none := by
        obtain ⟨_, _, ha, -⟩ := h.reached
        exact ha.scan.peeked.trans hp
      rw [hn] at hr
      exact ⟨before, rest, ha.keeping, hr⟩

theorem Shows.next (h : s.Shows c) : s.next.1 = c.peek ∧ s.next.2.Shows c.next.2 := by
  unfold Stream.next
  split
  case h_1 t ht =>
    obtain ⟨before, rest, ha, hr⟩ := h.reached
    rw [ht] at hr
    refine ⟨h.peeked t ht, h.source, h.stop, ?_, h.done, ?_, before, rest, ha.keeping, hr⟩
    · exact fun t ht => h.written t (List.mem_of_mem_tail ht)
    · exact fun _ ht => nomatch ht
  case h_2 hp => exact h.scan hp

theorem Shows.atEnd (h : s.Shows c) : s.atEnd.1 = c.atEnd ∧ s.atEnd.2.Shows c := by
  refine ⟨?_, h.peek.2⟩
  rw [Cursor.atEnd_eq h.written, Stream.atEnd, h.peek.1]

theorem Shows.iterate (h : s.Shows c) :
    s.iterate.1 = c.iterate.1 ∧ s.iterate.2.Shows c.iterate.2 := by
  rw [Stream.iterate, Cursor.iterate, h.done]
  split
  · exact ⟨rfl, h⟩
  · obtain ⟨ht, hs⟩ := h.next
    obtain ⟨before, rest, ha, hr⟩ := hs.reached
    have he : decide (s.next.1.kind = .endOfInput) = c.atEnd := by
      rw [← h.atEnd.1, Stream.atEnd, h.peek.1, ht]
    exact ⟨congrArg some ht, hs.source, hs.stop, hs.written, he, hs.peeked, before, rest,
      ha.keeping, hr⟩

end Stream

end Reckon
