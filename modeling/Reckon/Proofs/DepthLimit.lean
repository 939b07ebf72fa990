import Mathlib.Data.Nat.Find
import Reckon.Proofs.Permission
import Reckon.Proofs.Soundness
import Reckon.Proofs.Written

namespace Reckon.Parser

/-- The end of the text can stand for an operand, although it is none of the tokens. -/
def slack (stop : Position) (ts : List Token) : Nat :=
  if (front stop ts).kind = .endOfInput then 1 else 0

theorem slack_le_one (stop : Position) (ts : List Token) : slack stop ts ≤ 1 := by
  rw [slack]
  split <;> simp

theorem slack_of_ne {stop : Position} {ts : List Token} (h : (front stop ts).kind ≠ .endOfInput) :
    slack stop ts = 0 := if_neg h

/-- A rule has `n` tokens for what was read and what is left. -/
def Rule.Has (stop : Position) (n : Nat) (ts : List Token) : Rule → Prop
  | .sum l | .product l => l.height + ts.length ≤ n + slack stop ts
  | _ => ts.length ≤ n

variable {o : Options} {stop : Position} {r : Rule} {d n : Nat} {c : Context}
  {ts ts' ts₀ ts₁ : List Token} {l t : Tree} {op : Token} {e : SyntaxError}

theorem Rule.Has.length_le (h : r.Has stop n ts) : ts.length ≤ n := by
  have hs := slack_le_one stop ts
  cases r with
  | sum l | product l =>
      have hl := l.height_pos
      rw [Rule.Has] at h
      omega
  | expression | term | power | application | factor => exact h

theorem Closes.length_add_slack {k : Kind} {k? : Option Token} (h : Closes o stop k ts k? ts')
    (hk : k ≠ .endOfInput) : ts'.length + slack stop ts ≤ ts.length + slack stop ts' := by
  cases h with
  | @written t ts h =>
      rw [slack_of_ne (by simpa [h] using hk), List.length_cons]
      omega
  | assumed => exact Nat.le_refl _

theorem has_sum (hop : op.kind = .plus ∨ op.kind = .minus)
    (h : (Rule.sum l).Has stop n (op :: ts)) (hr : Reads o stop .term d c ts t ts₁)
    (ht : t.height + ts₁.length ≤ ts.length + slack stop ts₁) :
    (Rule.sum (.binary op l t)).Has stop n ts₁ := by
  have hs : (front stop (op :: ts)).kind ≠ .endOfInput := by
    rcases hop with hop | hop <;> simp [hop]
  have hl := hr.length_le
  have hp := l.height_pos
  rw [Rule.Has, slack_of_ne hs, List.length_cons] at h
  rw [Rule.Has, Tree.height]
  omega

theorem has_product (sign : Signed c ts op ts₀) (h : (Rule.product l).Has stop n ts)
    (hr : Reads o stop .power d c ts₀ t ts₁)
    (ht : t.height + ts₁.length ≤ ts₀.length + slack stop ts₁) :
    (Rule.product (.binary op l t)).Has stop n ts₁ := by
  have hp := l.height_pos
  rw [Rule.Has] at h ⊢
  cases sign with
  | written hop =>
      have hl := hr.length_le
      have hs : (front stop (op :: ts₀)).kind ≠ .endOfInput := by
        rcases hop with hop | hop <;> simp [hop]
      rw [slack_of_ne hs, List.length_cons] at h
      rw [Tree.height]
      omega
  | adjacent hj =>
      have hl := hr.length_lt rfl (joins_ne_end hj)
      rw [slack_of_ne (joins_ne_end hj)] at h
      rw [Tree.height]
      omega

theorem Reads.height_le (h : Reads o stop r d c ts t ts') (hn : r.Has stop n ts) :
    t.height + ts'.length ≤ n + slack stop ts' := by
  -- what a chain has read already counts against the same tokens
  induction h generalizing n with
  | expression _ _ ih ih' | term _ _ ih ih' => exact ih' (ih hn)
  | sumEnd | productEnd => exact hn
  | sumStep hop right _ _ ih ih' => exact ih' (has_sum hop hn right (ih (Nat.le_refl _)))
  | productStep sign right _ _ ih ih' => exact ih' (has_product sign hn right (ih (Nat.le_refl _)))
  | power _ _ ih | application _ _ ih => exact ih hn
  | raised _ hop _ exponent _ ih ih' =>
      have hb := ih hn
      have hu := ih' (Nat.le_refl _)
      have hl := exponent.length_le
      rw [slack_of_ne (by simp [hop]), List.length_cons] at hb
      rw [Tree.height]
      omega
  | @applied d c next ts ts₁ ts₂ t u callee ht hj _ argument _ ih ih' =>
      have hb := ih hn
      have hu := ih' (Nat.le_refl _)
      have hl := argument.length_lt rfl (joins_ne_end hj)
      have hp := t.height_pos
      rw [slack_of_ne (joins_ne_end hj)] at hb
      rw [Tree.height]
      omega
  | parens _ _ _ closes ih =>
      have ha := ih (Nat.le_refl _)
      have hc := closes.length_add_slack (by decide)
      have hl := hn.length_le
      rw [List.length_cons] at hl
      omega
  | bars _ _ _ closes _ ih =>
      have ha := ih (Nat.le_refl _)
      have hc := closes.length_add_slack (by decide)
      have hl := hn.length_le
      rw [List.length_cons] at hl
      rw [Tree.height]
      omega
  | sign _ _ _ _ ih =>
      have ha := ih (Nat.le_refl _)
      have hl := hn.length_le
      rw [List.length_cons] at hl
      rw [Tree.height]
      omega
  | leaf =>
      have hl := hn.length_le
      rw [List.length_cons] at hl
      rw [Tree.height]
      omega
  | missing _ h =>
      have hl := hn.length_le
      rw [Tree.height, slack, if_pos h]
      omega

theorem Signed.length_le (h : Signed c ts op ts₀) : ts₀.length ≤ ts.length := by
  cases h with
  | written => exact Nat.le_succ _
  | adjacent => exact Nat.le_refl _

theorem Fails.depth_le (h : Fails o stop r d c ts e ts') (hn : r.Has stop n ts)
    (he : e.fault = .tooDeep o.maxDepth) : o.maxDepth ≤ d + n := by
  have hle := hn.length_le
  -- one level deeper is at least one token later, so depth and tokens together do not grow
  induction h generalizing n with
  | expressionFirst _ ih | termFirst _ ih | powerBase _ ih | callee _ ih => exact ih hn he hle
  | expressionMore first _ ih | termMore first _ ih =>
      exact ih (first.height_le hn) he (Nat.le_trans first.length_le hle)
  | sumRight _ _ ih =>
      have hl := Nat.le_of_succ_le hle
      exact ih hl he hl
  | @sumTall d c op ts ts₁ l t hop right hh =>
      have ht := has_sum hop hn right (right.height_le (Nat.le_refl _))
      have hs := slack_le_one stop ts₁
      rw [Rule.Has] at ht
      omega
  | sumMore hop right _ _ ih =>
      have ht := has_sum hop hn right (right.height_le (Nat.le_refl _))
      exact ih ht he ht.length_le
  | productRight sign _ ih =>
      have hl := Nat.le_trans sign.length_le hle
      exact ih hl he hl
  | @productTall d c op ts ts₀ ts₁ l t sign right hh =>
      have ht := has_product sign hn right (right.height_le (Nat.le_refl _))
      have hs := slack_le_one stop ts₁
      rw [Rule.Has] at ht
      omega
  | productMore sign right _ _ ih =>
      have ht := has_product sign hn right (right.height_le (Nat.le_refl _))
      exact ih ht he ht.length_le
  | exponent base _ _ _ ih =>
      have hl := Nat.le_trans base.length_le hle
      have hd := ih (Nat.le_refl _) he (Nat.le_refl _)
      rw [List.length_cons] at hl
      omega
  | @powerTall d c op ts ts₁ ts₂ t u base hop _ exponent hh =>
      have hb := base.height_le hn
      have hu := exponent.height_le (Nat.le_refl _)
      have hs := slack_le_one stop ts₂
      rw [slack_of_ne (by simp [hop]), List.length_cons] at hb
      rw [Tree.height] at hh
      omega
  | argument callee _ hj _ _ ih =>
      have hl := callee.length_lt_of_front rfl (joins_ne_end hj)
      have hd := ih (Nat.le_refl _) he (Nat.le_refl _)
      omega
  | @applicationTall d c next ts ts₁ ts₂ t u callee _ hj _ argument hh =>
      have hb := callee.height_le hn
      have hu := argument.height_le (Nat.le_refl _)
      have hs := slack_le_one stop ts₂
      have hp := t.height_pos
      rw [slack_of_ne (joins_ne_end hj)] at hb
      rw [Tree.height] at hh
      omega
  | parensInner _ _ _ ih | barsInner _ _ _ ih | signOperand _ _ _ ih =>
      have hd := ih (Nat.le_refl _) he (Nat.le_refl _)
      rw [List.length_cons] at hle
      omega
  | @barsTall d c t ts ts₁ ts₂ a k? _ _ inner _ hh | @signTall d c t ts ts₁ a _ _ inner hh =>
      have ha := inner.height_le (Nat.le_refl _)
      have hs := slack_le_one stop ts₁
      rw [List.length_cons] at hle
      rw [Tree.height] at hh
      omega
  | exponentDeep _ _ hd | argumentDeep _ _ _ hd | factorDeep hd =>
      exact Nat.le_trans hd (Nat.le_add_right _ n)
  | parensOpen | barsOpen | missing | unexpected => cases he

end Reckon.Parser

namespace Reckon

open Reckon.Parser

def IsTooDeep (result : Except SyntaxError Tree) : Prop :=
  ∃ limit p, result = .error ⟨.tooDeep limit, p⟩

/-- The limit from which on a text is not too deep, and the answer from there on. -/
structure Threshold (m : Strictness) (scan : Scan) (limit : Nat)
    (result : Except SyntaxError Tree) : Prop where
  refused : ∀ d < limit, ∃ p, parse ⟨m, d⟩ scan = .error ⟨.tooDeep d, p⟩
  answered : ∀ d ≥ limit, parse ⟨m, d⟩ scan = result
  final : ¬IsTooDeep result

variable {o : Options} {m : Strictness} {scan : Scan} {d d' limit : Nat} {p : Phrase}
  {rest : List Token} {result : Except SyntaxError Tree} {t : Tree}

theorem not_isTooDeep_ok (t : Tree) : ¬IsTooDeep (.ok t) := nofun

theorem IsTooDeep.eq_error (h : IsTooDeep (parse o scan)) :
    ∃ p, parse o scan = .error ⟨.tooDeep o.maxDepth, p⟩ := by
  obtain ⟨limit, p, h⟩ := h
  rcases parse_error_fault h with ⟨_, hf⟩ | hf | ⟨hf, _⟩
  · cases hf
  · cases hf
    exact ⟨p, h⟩
  · cases hf

theorem IsTooDeep.maxDepth_le (h : IsTooDeep (parse o scan)) :
    o.maxDepth ≤ scan.tokens.length := by
  obtain ⟨p, h⟩ := h.eq_error
  rcases (parse_eq_error_iff (tokens_ne_nil_of_error h)).1 h with ⟨rest, hf⟩ | ⟨_, _, _, _, _, he⟩
  · have hd := hf.depth_le (Nat.le_refl _) rfl
    rwa [Nat.zero_add] at hd
  · cases he

theorem keeps_of_not_isTooDeep {e : SyntaxError} (h : parse ⟨m, d⟩ scan = .error e)
    (hd : ¬IsTooDeep (parse ⟨m, d⟩ scan)) : Options.Keeps ⟨m, d⟩ ⟨m, d'⟩ e.fault := by
  obtain ⟨f, p⟩ := e
  rcases parse_error_fault h with ⟨_, hf⟩ | hf | ⟨hf, hl⟩
  · cases hf
    trivial
  · cases hf
    exact absurd ⟨_, _, h⟩ hd
  · cases f with
    | unexpectedToken | tooDeep => cases hf
    | unexpectedEnd | unmatchedDelimiter | trailingTokens => exact hl

theorem parse_eq_of_le (h : ¬IsTooDeep (parse ⟨m, d⟩ scan)) (hd : d ≤ d') :
    parse ⟨m, d'⟩ scan = parse ⟨m, d⟩ scan := by
  have ho := Options.within_of_le m hd
  cases hs : parse ⟨m, d⟩ scan with
  | ok t => exact parse_mono hs ho
  | error e => exact parse_error_mono hs ho (keeps_of_not_isTooDeep hs h)

theorem exists_threshold (m : Strictness) (scan : Scan) :
    ∃ limit ≤ scan.tokens.length + 1, ∃ result, Threshold m scan limit result := by
  classical
  have hlen : ¬IsTooDeep (parse ⟨m, scan.tokens.length + 1⟩ scan) := by
    intro h
    exact Nat.not_succ_le_self _ h.maxDepth_le
  have hex : ∃ d, ¬IsTooDeep (parse ⟨m, d⟩ scan) := ⟨_, hlen⟩
  refine ⟨Nat.find hex, Nat.find_min' hex hlen, parse ⟨m, Nat.find hex⟩ scan, ?_, ?_,
    Nat.find_spec hex⟩
  · intro d hd
    exact (not_not.1 (Nat.find_min hex hd)).eq_error
  · intro d hd
    exact parse_eq_of_le (Nat.find_spec hex) hd

namespace Threshold

theorem le_of_ok (h : Threshold m scan limit result) (hd : parse ⟨m, d⟩ scan = .ok t) :
    limit ≤ d := by
  by_contra hlt
  obtain ⟨p, hp⟩ := h.refused d (Nat.lt_of_not_le hlt)
  rw [hd] at hp
  cases hp

theorem of_heads (h : Threshold m scan limit result) (hp : p.Heads m scan rest)
    (hw : ∀ t ∈ scan.tokens, t.kind ≠ .endOfInput) (hne : scan.tokens ≠ []) :
    result = .ok p.tree ∧ limit = max p.tree.height p.nesting := by
  have hmax : parse ⟨m, max p.tree.height p.nesting⟩ scan = .ok p.tree :=
    (parse_eq_ok_iff_heads hw hne).2 ⟨p, rest, hp, p.admitted_zero.2 (Nat.le_refl _), rfl⟩
  have hle := h.le_of_ok hmax
  have ha : p.Admitted ⟨m, limit⟩ 0 := by
    by_contra hn
    have hf := Fits.refused (o := ⟨m, limit⟩) hp.fits (hp.precedes hw) hn
    rw [← hp.tokens] at hf
    obtain ⟨t, ts', hf⟩ := hf
    have he := parse_of_fails hne hf
    rw [h.answered limit (Nat.le_refl _)] at he
    exact h.final ⟨_, _, he⟩
  exact ⟨(h.answered _ hle).symm.trans hmax, Nat.le_antisymm hle (p.admitted_zero.1 ha)⟩

end Threshold

theorem height_le_of_parse (hw : ∀ t ∈ scan.tokens, t.kind ≠ .endOfInput) (hne : scan.tokens ≠ [])
    (h : parse o scan = .ok t) : t.height ≤ o.maxDepth := by
  obtain ⟨p, rest, _, ha, rfl⟩ := (parse_eq_ok_iff_heads hw hne).1 h
  exact ha.height

/-- Below some limit a text is refused for its depth, and from there on the answer stays the same.
When it is a tree, that limit is its height or the nesting of its operands, whichever is more. -/
theorem depth_limit_is_threshold (m : Strictness) (text : String) :
    (∃ limit ≤ (Scan.ofString text).tokens.length + 1, ∃ result,
      Threshold m (.ofString text) limit result ∧
        ∀ t, result = .ok t → (Scan.ofString text).tokens ≠ [] →
          (∃ (p : Phrase) (rest : List Token), p.Heads m (.ofString text) rest) ∧
            ∀ (p : Phrase) (rest : List Token), p.Heads m (.ofString text) rest →
              p.tree = t ∧ limit = max t.height p.nesting) ∧
      ∀ d t, parse ⟨m, d⟩ (.ofString text) = .ok t →
        ((Scan.ofString text).tokens ≠ [] → t.height ≤ d) ∧
          ∀ d' ≥ d, parse ⟨m, d'⟩ (.ofString text) = .ok t := by
  have hw := Scan.ne_end_of_mem text
  constructor
  · obtain ⟨limit, hle, result, h⟩ := exists_threshold m (.ofString text)
    refine ⟨limit, hle, result, h, ?_⟩
    intro t ht hne
    constructor
    · have hok := h.answered limit (Nat.le_refl _)
      rw [ht] at hok
      obtain ⟨p, rest, hp, _⟩ := (parse_eq_ok_iff_heads hw hne).1 hok
      exact ⟨p, rest, hp⟩
    · intro p rest hp
      obtain ⟨hr, hl⟩ := h.of_heads hp hw hne
      rw [ht, Except.ok.injEq] at hr
      subst hr
      exact ⟨rfl, hl⟩
  · intro d t ht
    constructor
    · intro hne
      exact height_le_of_parse hw hne ht
    · intro d' hd
      exact parse_mono ht (Options.within_of_le m hd)

end Reckon
