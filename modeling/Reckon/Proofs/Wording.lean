import Reckon.Proofs.Gaps
import Reckon.Proofs.Rewording

namespace Reckon

def SyntaxError.anywhere (e : SyntaxError) : SyntaxError := { e with position := .start }

def Scan.anywhere (s : Scan) : Scan := ⟨s.tokens.map Token.anywhere, .start⟩

namespace Parser

def Rule.anywhere : Rule → Rule
  | sum l => sum l.anywhere
  | product l => product l.anywhere
  | r => r

variable {o : Options} {stop : Position} {r : Rule} {d : Nat} {c : Context}
  {ts ts' ts₀ : List Token} {t : Tree} {e : SyntaxError} {op : Token}

@[simp] theorem front_map_anywhere (stop : Position) (ts : List Token) :
    front .start (ts.map Token.anywhere) = (front stop ts).anywhere := by
  cases ts <;> rfl

theorem tooDeep_anywhere (t : Token) : (tooDeep o t).anywhere = tooDeep o t.anywhere := rfl

theorem Signed.anywhere (h : Signed c ts op ts₀) :
    Signed c (ts.map Token.anywhere) op.anywhere (ts₀.map Token.anywhere) := by
  cases h with
  | written h => exact .written h
  | @adjacent next ts h =>
      show Signed c (next.anywhere :: ts.map Token.anywhere) (between next.anywhere) _
      exact .adjacent h

theorem Closes.anywhere {k : Kind} {k? : Option Token} (h : Closes o stop k ts k? ts') :
    Closes o .start k (ts.map Token.anywhere) (k?.map Token.anywhere) (ts'.map Token.anywhere) := by
  cases h with
  | written h => exact .written h
  | assumed hl h => exact .assumed hl (by rwa [front_map_anywhere stop])

theorem Reads.anywhere (h : Reads o stop r d c ts t ts') :
    Reads o .start r.anywhere d c (ts.map Token.anywhere) t.anywhere (ts'.map Token.anywhere) := by
  have hh {t : Tree} (h : t.height ≤ o.maxDepth) : t.anywhere.height ≤ o.maxDepth := by
    rwa [Tree.height_anywhere]
  induction h with
  | expression _ _ ih ih' => exact .expression ih ih'
  | sumEnd h => exact .sumEnd (by rwa [front_map_anywhere stop])
  | sumStep hop _ hd _ ih ih' => exact .sumStep hop ih (hh hd) ih'
  | term _ _ ih ih' => exact .term ih ih'
  | productEnd h hj =>
      refine .productEnd ?_ ?_
      · rwa [front_map_anywhere stop]
      · rwa [front_map_anywhere stop]
  | productStep sign _ hd _ ih ih' => exact .productStep sign.anywhere ih (hh hd) ih'
  | power _ h ih => exact .power ih (by rwa [front_map_anywhere stop])
  | raised _ hop hd _ ht ih ih' => exact .raised ih hop hd ih' (hh ht)
  | application _ h ih =>
      exact .application ih (by rwa [front_map_anywhere stop, Tree.isBareName_anywhere])
  | applied _ ht hj hd _ hu ih ih' =>
      exact .applied ih (by rwa [Tree.isBareName_anywhere]) hj hd ih' (hh hu)
  | parens ht hd _ closes ih => exact .parens ht hd ih closes.anywhere
  | bars ht hd _ closes hu ih => exact .bars ht hd ih closes.anywhere (hh hu)
  | sign ht hd _ hu ih => exact .sign ht hd ih (hh hu)
  | leaf ht hd => exact .leaf ht hd
  | @missing d c ts hl h hd =>
      have hk : (front .start (ts.map Token.anywhere)).kind = .endOfInput := by
        rwa [front_map_anywhere stop]
      have hr := Reads.missing (c := c) hl hk hd
      rwa [front_map_anywhere stop] at hr

theorem Fails.anywhere (h : Fails o stop r d c ts e ts') :
    Fails o .start r.anywhere d c (ts.map Token.anywhere) e.anywhere (ts'.map Token.anywhere) := by
  have hh {t : Tree} (h : t.height ≤ o.maxDepth) : t.anywhere.height ≤ o.maxDepth := by
    rwa [Tree.height_anywhere]
  have ht {t : Tree} (h : o.maxDepth < t.height) : o.maxDepth < t.anywhere.height := by
    rwa [Tree.height_anywhere]
  have hn {t : Tree} (h : t.isBareName = true) : t.anywhere.isBareName = true := by
    rwa [Tree.isBareName_anywhere]
  induction h with
  | expressionFirst _ ih => exact .expressionFirst ih
  | expressionMore first _ ih => exact .expressionMore first.anywhere ih
  | sumRight hop _ ih => exact .sumRight hop ih
  | sumTall hop right hu => exact .sumTall hop right.anywhere (ht hu)
  | sumMore hop right hu _ ih => exact .sumMore hop right.anywhere (hh hu) ih
  | termFirst _ ih => exact .termFirst ih
  | termMore first _ ih => exact .termMore first.anywhere ih
  | productRight sign _ ih => exact .productRight sign.anywhere ih
  | productTall sign right hu => exact .productTall sign.anywhere right.anywhere (ht hu)
  | productMore sign right hu _ ih => exact .productMore sign.anywhere right.anywhere (hh hu) ih
  | powerBase _ ih => exact .powerBase ih
  | exponentDeep base hop hd => exact .exponentDeep base.anywhere hop hd
  | exponent base hop hd _ ih => exact .exponent base.anywhere hop hd ih
  | powerTall base hop hd exponent hu =>
      exact .powerTall base.anywhere hop hd exponent.anywhere (ht hu)
  | callee _ ih => exact .callee ih
  | argumentDeep callee hb hj hd => exact .argumentDeep callee.anywhere (hn hb) hj hd
  | argument callee hb hj hd _ ih => exact .argument callee.anywhere (hn hb) hj hd ih
  | applicationTall callee hb hj hd argument hu =>
      exact .applicationTall callee.anywhere (hn hb) hj hd argument.anywhere (ht hu)
  | @factorDeep d c ts hd =>
      rw [tooDeep_anywhere, ← front_map_anywhere stop]
      exact .factorDeep hd
  | parensInner hk hd _ ih => exact .parensInner hk hd ih
  | parensOpen hk hd inner h hl =>
      exact .parensOpen hk hd inner.anywhere (by rwa [front_map_anywhere stop]) hl
  | barsInner hk hd _ ih => exact .barsInner hk hd ih
  | barsOpen hk hd inner h hl =>
      exact .barsOpen hk hd inner.anywhere (by rwa [front_map_anywhere stop]) hl
  | barsTall hk hd inner closes hu =>
      exact .barsTall hk hd inner.anywhere closes.anywhere (ht hu)
  | signOperand hk hd _ ih => exact .signOperand hk hd ih
  | signTall hk hd operand hu => exact .signTall hk hd operand.anywhere (ht hu)
  | @missing d c ts hl h hd =>
      have hk : (front .start (ts.map Token.anywhere)).kind = .endOfInput := by
        rwa [front_map_anywhere stop]
      have hf := Fails.missing (c := c) hl hk hd
      rwa [front_map_anywhere stop] at hf
  | unexpected hd hs hk => exact .unexpected hd hs hk

end Parser

open Reckon.Parser

variable {text text' : String}

def parsed (o : Options) (scan : Scan) : Except SyntaxError Tree :=
  ((parse o scan).map Tree.anywhere).mapError SyntaxError.anywhere

theorem parse_anywhere (o : Options) (scan : Scan) : parse o scan.anywhere = parsed o scan := by
  by_cases hn : scan.tokens = []
  · have ha : scan.anywhere.tokens = [] := by rw [Scan.anywhere, hn, List.map_nil]
    rw [parsed, parse_nil hn, parse_nil ha]
    rfl
  · have ha : scan.anywhere.tokens ≠ [] := mt List.map_eq_nil_iff.1 hn
    rcases settled o scan.stop .expression 0 .plain scan.tokens with
      ⟨t, rest, ht⟩ | ⟨e, rest, he⟩
    · rw [parsed, parse_of_reads hn ht, parse_of_reads ha ht.anywhere]
      cases rest with
      | nil => rfl
      | cons next rest =>
          simp only [ending, List.map_cons]
          split <;> rfl
    · rw [parsed, parse_of_fails hn he, parse_of_fails ha he.anywhere]
      rfl

theorem outcome_eq (s : Symbols) (o : Options) (text : String) :
    outcome s o text = match parsed o (.ofString text) with
      | .ok t => (s.eval t).mapError .runtime
      | .error e => .error (.syntactic e) := by
  cases h : parse o (.ofString text) with
  | ok t =>
      rw [parsed, h]
      exact outcome_of_parse s h
  | error e =>
      rw [parsed, h, outcome, evaluate, h]
      rfl

theorem anywhere_of_words (h : words text = words text') :
    (Scan.ofString text).anywhere = (Scan.ofString text').anywhere := congrArg (Scan.mk · .start) h

/-- What a text is read as is a matter of its words, in both modes. -/
theorem exists_parse_of_heads {o : Options} {scan : Scan} {rest : List Token} {p : Phrase}
    (hp : p.Heads o.strictness scan rest) (ha : p.Admitted o 0) (hne : scan.tokens ≠ [])
    (hw : words text = scan.tokens.map Token.anywhere) :
    ∃ u, parse o (.ofString text) = .ok u ∧ u.anywhere = p.tree.anywhere := by
  have hk : ∀ t ∈ scan.tokens, t.kind ≠ .endOfInput := by
    intro t ht
    have hm : t.anywhere ∈ words text := hw ▸ List.mem_map_of_mem ht
    obtain ⟨v, hv, he⟩ := List.mem_map.1 hm
    rw [← Token.kind_eq_of_anywhere he]
    exact Scan.ne_end_of_mem text v hv
  have hs : parse o scan = .ok p.tree := (parse_eq_ok_iff_heads hk hne).2 ⟨p, rest, hp, ha, rfl⟩
  have he : (Scan.ofString text).anywhere = scan.anywhere := congrArg (Scan.mk · .start) hw
  have hr : parsed o (.ofString text) = parsed o scan := by
    rw [← parse_anywhere, he, parse_anywhere]
  rw [parsed, parsed, hs] at hr
  cases h : parse o (.ofString text) with
  | error e =>
      rw [h] at hr
      cases hr
  | ok u =>
      rw [h] at hr
      exact ⟨u, rfl, Except.ok.inj hr⟩

/-- Texts of the same words are read and evaluated alike, and gaps between tokens do not change the
words. -/
theorem only_words_matter :
    (∀ text text', words text = words text' → ∀ o,
      parsed o (.ofString text) = parsed o (.ofString text') ∧
        ∀ s : Symbols, outcome s o text = outcome s o text') ∧
      (∀ a gap b, IsSeam a b → (∀ c ∈ gap.toList, IsIgnorable c) →
        words (a ++ gap ++ b) = words (a ++ b)) ∧
      ∀ text, words (spaced text) = words text := by
  refine ⟨?_, fun _ _ _ => words_gap, words_spaced⟩
  intro text text' h o
  have hp : parsed o (.ofString text) = parsed o (.ofString text') := by
    rw [← parse_anywhere, ← parse_anywhere, anywhere_of_words h]
  refine ⟨hp, ?_⟩
  intro s
  rw [outcome_eq, outcome_eq, hp]

theorem gap_between_bar_and_name :
    IsSeam "2|" "pi" ∧ (∀ c ∈ "é\n".toList, IsIgnorable c) ∧ words "2|é\npi" = words "2|pi" := by
  have hs : IsSeam "2|" "pi" := by
    unfold IsSeam
    decide
  have hg : ∀ c ∈ "é\n".toList, IsIgnorable c := by simp [IsIgnorable]
  exact ⟨hs, hg, only_words_matter.2.1 "2|" "é\n" "pi" hs hg⟩

end Reckon
