import Reckon.Proofs.Streaming

namespace Reckon

inductive Call where
  | peek | next | atEnd | iterate | source
  deriving DecidableEq, Repr

inductive Answer where
  | peeked (t : Token)
  | taken (t : Token)
  | atEnd (b : Bool)
  | iterated (t? : Option Token)
  | source (text : String)
  deriving DecidableEq, Repr

namespace Answer

def handed? : Answer → Option Token
  | taken t => some t
  | iterated t? => t?
  | _ => none

def token? : Answer → Option Token
  | peeked t | taken t => some t
  | iterated t? => t?
  | _ => none

def endsIteration : Answer → Bool
  | iterated (some t) => t.kind = .endOfInput
  | _ => false

theorem endsIteration_iff {a : Answer} :
    a.endsIteration = true ↔ ∃ t, a = iterated (some t) ∧ t.kind = .endOfInput := by
  constructor
  · intro h
    cases a with
    | iterated t? =>
        cases t? with
        | none => cases h
        | some t => exact ⟨t, rfl, of_decide_eq_true h⟩
    | peeked | taken | atEnd | source => cases h
  · rintro ⟨t, rfl, h⟩
    exact decide_eq_true h

end Answer

def runCalls {σ : Type} (ask : σ → Call → Answer × σ) (s : σ) : List Call → List Answer × σ
  | [] => ([], s)
  | call :: calls =>
    let later := runCalls ask (ask s call).2 calls
    ((ask s call).1 :: later.1, later.2)

def Stream.ask (s : Stream) : Call → Answer × Stream
  | .peek => (.peeked s.peek.1, s.peek.2)
  | .next => (.taken s.next.1, s.next.2)
  | .atEnd => (.atEnd s.atEnd.1, s.atEnd.2)
  | .iterate => (.iterated s.iterate.1, s.iterate.2)
  | .source => (.source s.source, s)

def Cursor.ask (c : Cursor) : Call → Answer × Cursor
  | .peek => (.peeked c.peek, c)
  | .next => (.taken c.next.1, c.next.2)
  | .atEnd => (.atEnd c.atEnd, c)
  | .iterate => (.iterated c.iterate.1, c.iterate.2)
  | .source => (.source c.source, c)

def Stream.run (s : Stream) (calls : List Call) : List Answer × Stream := runCalls ask s calls

def Cursor.run (c : Cursor) (calls : List Call) : List Answer × Cursor := runCalls ask c calls

namespace Stream

variable {s s' : Stream} {c : Cursor}

theorem Shows.ask (h : s.Shows c) (call : Call) :
    (s.ask call).1 = (c.ask call).1 ∧ (s.ask call).2.Shows (c.ask call).2 := by
  cases call with
  | peek => exact ⟨congrArg Answer.peeked h.peek.1, h.peek.2⟩
  | next => exact ⟨congrArg Answer.taken h.next.1, h.next.2⟩
  | atEnd => exact ⟨congrArg Answer.atEnd h.atEnd.1, h.atEnd.2⟩
  | iterate => exact ⟨congrArg Answer.iterated h.iterate.1, h.iterate.2⟩
  | source => exact ⟨congrArg Answer.source h.source, h⟩

theorem Shows.run (h : s.Shows c) (calls : List Call) :
    (s.run calls).1 = (c.run calls).1 ∧ (s.run calls).2.Shows (c.run calls).2 := by
  induction calls generalizing s c with
  | nil => exact ⟨rfl, h⟩
  | cons call calls ih =>
      obtain ⟨ha, hs⟩ := h.ask call
      obtain ⟨hl, hs⟩ := ih hs
      exact ⟨congrArg₂ List.cons ha hl, hs⟩

theorem Shows.same_answers (h : s.Shows c) (h' : s'.Shows c) (calls : List Call) :
    (s.run calls).1 = (s'.run calls).1 := (h.run calls).1.trans (h'.run calls).1.symm

end Stream

def handed (log : List Answer) : List Token := log.filterMap Answer.handed?

namespace Cursor

/-- A cursor over the tokens of a text that has given the answers in a log. -/
structure Logged (text : String) (log : List Answer) (c : Cursor) : Prop where
  source : c.source = text
  stop : c.stop = (Scan.ofString text).stop
  rest : c.rest = (Scan.ofString text).tokens.drop (handed log).length
  order : ∀ i t, (handed log)[i]? = some t →
    t = (Scan.ofString text).tokens.getD i (Scan.ofString text).finish
  done : c.done = log.any Answer.endsIteration
  shown : ∀ a ∈ log, ∀ t ∈ a.token?, t ∈ (Scan.ofString text).toList

variable {text : String} {log : List Answer} {c : Cursor}

theorem logged_ofString (text : String) : Logged text [] (ofString text) where
  source := rfl
  stop := rfl
  rest := rfl
  order := by
    intro i t h
    cases h
  done := rfl
  shown := by
    intro a h
    cases h

namespace Logged

theorem peek_eq (h : Logged text log c) :
    c.peek = (Scan.ofString text).tokens.getD (handed log).length (Scan.ofString text).finish := by
  rw [peek, h.rest, h.stop, List.headD_eq_head?_getD, List.head?_drop, List.getD_eq_getElem?_getD]
  rfl

theorem peek_mem (h : Logged text log c) : c.peek ∈ (Scan.ofString text).toList := by
  rw [h.peek_eq, List.getD_eq_getElem?_getD, Scan.toList, List.mem_append]
  cases hi : (Scan.ofString text).tokens[(handed log).length]? with
  | none => exact .inr (List.mem_singleton.2 rfl)
  | some t => exact .inl (List.mem_of_getElem? hi)

theorem shown_append (h : Logged text log c) {a : Answer}
    (ha : ∀ t ∈ a.token?, t ∈ (Scan.ofString text).toList) :
    ∀ a' ∈ log ++ [a], ∀ t ∈ a'.token?, t ∈ (Scan.ofString text).toList := by
  intro a' hm
  rcases List.mem_append.1 hm with hm | hm
  · exact h.shown a' hm
  · rw [List.mem_singleton.1 hm]
    exact ha

theorem idle (h : Logged text log c) {a : Answer} (hh : a.handed? = none)
    (he : a.endsIteration = false) (ht : ∀ t ∈ a.token?, t ∈ (Scan.ofString text).toList) :
    Logged text (log ++ [a]) c := by
  have hl : handed (log ++ [a]) = handed log := by
    rw [handed, List.filterMap_append, List.filterMap_cons_none hh]
    exact List.append_nil _
  refine ⟨h.source, h.stop, ?_, ?_, ?_, h.shown_append ht⟩
  · rw [hl]
    exact h.rest
  · rw [hl]
    exact h.order
  · rw [h.done, List.any_append, List.any_cons, he]
    simp

theorem consumed (h : Logged text log c) {a : Answer} (hh : a.handed? = some c.peek)
    (ht : a.token? = some c.peek) :
    Logged text (log ++ [a])
      { c with rest := c.rest.tail, done := c.done || a.endsIteration } := by
  have hl : handed (log ++ [a]) = handed log ++ [c.peek] := by
    rw [handed, List.filterMap_append, List.filterMap_cons_some hh]
    rfl
  refine ⟨h.source, h.stop, ?_, ?_, ?_, h.shown_append ?_⟩
  · rw [hl, List.length_append, List.length_singleton, h.rest, List.tail_drop]
  · intro i t hi
    rw [hl] at hi
    rcases Nat.lt_trichotomy i (handed log).length with hlt | rfl | hgt
    · rw [List.getElem?_append_left hlt] at hi
      exact h.order i t hi
    · rw [List.getElem?_concat_length] at hi
      cases hi
      exact h.peek_eq
    · have hn : (handed log ++ [c.peek])[i]? = none := by
        rw [List.getElem?_eq_none_iff, List.length_append, List.length_singleton]
        exact hgt
      rw [hn] at hi
      cases hi
  · rw [h.done, List.any_append, List.any_cons, List.any_nil, Bool.or_false]
  · intro t hm
    rw [ht] at hm
    cases hm
    exact h.peek_mem

theorem written (h : Logged text log c) : ∀ t ∈ c.rest, t.kind ≠ .endOfInput := by
  intro t ht
  rw [h.rest] at ht
  exact Scan.ne_end_of_mem text t (List.mem_of_mem_drop ht)

theorem ask (h : Logged text log c) (call : Call) :
    Logged text (log ++ [(c.ask call).1]) (c.ask call).2 := by
  cases call with
  | peek =>
      refine h.idle rfl rfl ?_
      intro t ht
      cases ht
      exact h.peek_mem
  | next =>
      have hc := h.consumed (a := .taken c.peek) rfl rfl
      have he : (Answer.taken c.peek).endsIteration = false := rfl
      rwa [he, Bool.or_false] at hc
  | atEnd | source =>
      refine h.idle rfl rfl ?_
      intro t ht
      cases ht
  | iterate =>
      cases hd : c.done with
      | true =>
          rw [Cursor.ask, iterate, if_pos hd]
          refine h.idle rfl rfl ?_
          intro t ht
          cases ht
      | false =>
          have hc := h.consumed (a := .iterated (some c.peek)) rfl rfl
          rw [hd, Bool.false_or, Answer.endsIteration, ← atEnd_eq h.written] at hc
          rw [Cursor.ask, iterate, if_neg (by simp [hd])]
          exact hc

theorem run (h : Logged text log c) (calls : List Call) :
    Logged text (log ++ (c.run calls).1) (c.run calls).2 := by
  induction calls generalizing log c with
  | nil => rwa [Cursor.run, runCalls, List.append_nil]
  | cons call calls ih =>
      have hc := ih (h.ask call)
      rwa [List.append_assoc] at hc

theorem atEnd_iff (h : Logged text log c) :
    c.atEnd = true ↔ (Scan.ofString text).tokens <+: handed log := by
  rw [atEnd, List.isEmpty_iff, h.rest, List.drop_eq_nil_iff]
  refine ⟨fun hl => ?_, List.IsPrefix.length_le⟩
  rw [List.prefix_iff_getElem?]
  intro i hi
  have hg := List.getElem?_eq_getElem (hi.trans_le hl)
  rw [hg, h.order i _ hg, List.getD_eq_getElem?_getD, List.getElem?_eq_getElem hi]
  rfl

end Logged

end Cursor

/-- What a stream over a text is like after the answers in a log. -/
structure Stream.Faithful (text : String) (log : List Answer) (s : Stream) : Prop where
  order : ∀ i t, (handed log)[i]? = some t →
    t = (Scan.ofString text).tokens.getD i (Scan.ofString text).finish
  peek : s.peek.1 = s.next.1
  peek_idle : ∀ calls, (s.peek.2.run calls).1 = (s.run calls).1
  atEnd : s.atEnd.1 = true ↔ (Scan.ofString text).tokens <+: handed log
  atEnd_idle : ∀ calls, (s.atEnd.2.run calls).1 = (s.run calls).1
  iterate : s.iterate.1 = none ↔ ∃ t, .iterated (some t) ∈ log ∧ t.kind = .endOfInput
  iterate_idle : s.iterate.1 = none → s.iterate.2 = s
  source : s.source = text

/-- Whatever a stream was asked for, it hands out the tokens of its text, one after the other. -/
theorem stream_is_cursor (text : String) (calls : List Call) :
    ((Stream.ofString text).run calls).2.Faithful text ((Stream.ofString text).run calls).1 := by
  obtain ⟨hl, hs⟩ := (Stream.shows_ofString text).run calls
  have hc := (Cursor.logged_ofString text).run calls
  rw [List.nil_append, ← hl] at hc
  generalize (Stream.ofString text).run calls = r at hs hc
  generalize ((Cursor.ofString text).run calls).2 = c at hs hc
  have hi : r.2.iterate.1 = none ↔ r.2.done = true := by
    rw [Stream.iterate]
    split <;> simp_all
  refine ⟨hc.order, ?_, hs.peek.2.same_answers hs, ?_, hs.atEnd.2.same_answers hs, ?_, ?_, ?_⟩
  · exact hs.peek.1.trans hs.next.1.symm
  · rw [hs.atEnd.1]
    exact hc.atEnd_iff
  · rw [hi, hs.done, hc.done, List.any_eq_true]
    constructor
    · rintro ⟨a, ha, he⟩
      obtain ⟨t, rfl, hk⟩ := Answer.endsIteration_iff.1 he
      exact ⟨t, ha, hk⟩
    · rintro ⟨t, ha, hk⟩
      exact ⟨_, ha, Answer.endsIteration_iff.2 ⟨t, rfl, hk⟩⟩
  · intro h
    rw [Stream.iterate, if_pos (hi.1 h)]
  · exact hs.source.trans hc.source

/-- Every token that a stream shows stands where counting from the beginning of the text says. -/
theorem stream_places_count_from_start (text : String) (calls : List Call) :
    ∀ a ∈ ((Stream.ofString text).run calls).1, ∀ t ∈ a.token?,
      ∃ before after, t.Stands before after text ∧
        t.position.line = 1 + before.toList.count '\n' ∧
        t.position.column = 1 + (lastLine before.toList).length := by
  intro a ha t ht
  have hc := (Cursor.logged_ofString text).run calls
  rw [((Stream.shows_ofString text).run calls).1] at ha
  exact Scan.places_of_mem (hc.shown a ha t ht)

theorem stream_places_in_second_line :
    .taken ⟨.identifier, "x", 1, ⟨5, 2, 3⟩⟩ ∈
        ((Stream.ofString "1\n\téx").run [.next, .peek, .next]).1 ∧
      ∃ before after, Token.Stands ⟨.identifier, "x", 1, ⟨5, 2, 3⟩⟩ before after "1\n\téx" ∧
        2 = 1 + before.toList.count '\n' ∧ 3 = 1 + (lastLine before.toList).length := by
  have h : Answer.taken ⟨.identifier, "x", 1, ⟨5, 2, 3⟩⟩ ∈
      ((Stream.ofString "1\n\téx").run [.next, .peek, .next]).1 := by
    rw [((Stream.shows_ofString _).run _).1]
    decide +kernel
  exact ⟨h, stream_places_count_from_start _ _ _ h _ rfl⟩

end Reckon
