import Reckon.Proofs.Completeness

namespace Reckon.Parser

variable {o : Options} {stop : Position} {c : Context} {lvl : Level} {p : Phrase} {k : Kind}

/-- A phrase of a level that was read from tokens, within the limit of the parser. -/
structure Covers (o : Options) (stop : Position) (lvl : Level) (d : Nat) (c : Context)
    (ts : List Token) (t : Tree) (ts' : List Token) (p : Phrase) : Prop where
  fits : Fits (o.strictness.spare stop) c lvl p (front stop ts').kind
  tree : p.tree = t
  tokens : ts = p.tokens ++ ts'
  first : p.first = front stop ts
  admitted : p.Admitted o d

def Rule.Stops (c : Context) (k : Kind) : Rule → Prop
  | .expression | .sum _ => c.closes k = true
  | .term | .product _ => c.closes k = true ∨ k = .plus ∨ k = .minus
  | .power => k ≠ .power
  | .application | .factor => True

def Rule.Starts (c : Context) (k : Kind) : Rule → Prop
  | .sum _ => c.closes k = true ∨ k = .plus ∨ k = .minus
  | .product _ => k ≠ .power
  | _ => True

theorem Reads.stops {r : Rule} {d : Nat} {ts ts' : List Token} {t : Tree}
    (h : Reads o stop r d c ts t ts') (hs : r.Starts c (front stop ts).kind) :
    r.Stops c (front stop ts').kind := by
  induction h with
  | expression _ _ ih ih' | term _ _ ih ih' => exact ih' (ih trivial)
  | sumEnd h => exact hs.resolve_right h
  | sumStep _ _ _ _ ih ih' | productStep _ _ _ _ ih ih' => exact ih' (ih trivial)
  | @productEnd d c ts l h hj =>
      simp only [Rule.Starts, Rule.Stops] at hs ⊢
      generalize (front stop ts).kind = k at *
      cases c <;> cases k <;>
        simp_all [Context.closes, Kind.ends, Context.joins, Kind.startsOperand]
  | power _ h => exact h
  | raised _ _ _ _ _ _ ih => exact ih trivial
  | application | applied | parens | bars | sign | leaf | missing => trivial

/-- What reading by a rule gives: a phrase of its level, or for a chain a longer phrase. -/
def Rule.Gives (o : Options) (stop : Position) (d : Nat) (c : Context) (ts : List Token)
    (t : Tree) (ts' : List Token) : Rule → Prop
  | .expression => ∃ q, Covers o stop .expression d c ts t ts' q
  | .sum l => ∀ ts₀ p, Covers o stop .expression d c ts₀ l ts p →
      ∃ q, Covers o stop .expression d c ts₀ t ts' q
  | .term => ∃ q, Covers o stop .term d c ts t ts' q
  | .product l => ∀ ts₀ p, Covers o stop .term d c ts₀ l ts p →
      ∃ q, Covers o stop .term d c ts₀ t ts' q
  | .power => ∃ q, Covers o stop .power d c ts t ts' q
  | .application => ∃ q, Covers o stop .application d c ts t ts' q
  | .factor => ∃ q, Covers o stop .factor d c ts t ts' q

theorem Closes.closed {ts ts' : List Token} {k? : Option Token}
    (h : Closes o stop k ts k? ts') (hc : (front stop ts).kind ≠ k →
      (front stop ts).kind.ends = true) :
    ts = k?.toList ++ ts' ∧
      Closed (o.strictness.spare stop) k k? (front stop ts).kind (front stop ts').kind := by
  cases h with
  | written h => exact ⟨rfl, .written h⟩
  | assumed hl h => exact ⟨rfl, .assumed (by rw [spare_of_isLenient hl]; rfl) h (hc h)⟩

theorem Phrase.Heads.precedes {m : Strictness} {scan : Scan} {rest : List Token}
    (h : p.Heads m scan rest) (hw : ∀ t ∈ scan.tokens, t.kind ≠ .endOfInput) :
    Precedes scan.stop .plain .expression (front scan.stop rest).kind rest := by
  refine ⟨rfl, fun he => ?_, Context.before_of_closes h.closes⟩
  cases rest with
  | nil => rfl
  | cons t rest => exact absurd he (hw t (by simp [h.tokens]))

theorem Covers.ne_end {d : Nat} {ts ts' : List Token} {t : Tree}
    (h : Covers o stop lvl d c ts t ts' p) (hw : ∀ t ∈ ts, t.kind ≠ .endOfInput) :
    ∀ t ∈ ts', t.kind ≠ .endOfInput := by
  intro t ht
  exact hw t (h.tokens ▸ List.mem_append_right _ ht)

theorem Signed.ne_end {op : Token} {ts ts₀ : List Token} (h : Signed c ts op ts₀)
    (hw : ∀ t ∈ ts, t.kind ≠ .endOfInput) : ∀ t ∈ ts₀, t.kind ≠ .endOfInput := by
  cases h with
  | written => exact fun t ht => hw t (List.mem_cons_of_mem _ ht)
  | adjacent => exact hw

section Covers

variable {d : Nat} {ts ts₀ ts₁ ts₂ : List Token} {l t u : Tree} {q : Phrase} {op : Token}

theorem Covers.lift {lvl' : Level} (h : Covers o stop lvl d c ts t ts₁ p)
    (hf : Fits (o.strictness.spare stop) c lvl p (front stop ts₁).kind →
      Fits (o.strictness.spare stop) c lvl' p (front stop ts₁).kind) :
    Covers o stop lvl' d c ts t ts₁ p := { h with fits := hf h.fits }

theorem Covers.sum (hp : Covers o stop .expression d c ts₀ l (op :: ts) p)
    (hop : op.kind = .plus ∨ op.kind = .minus) (hq : Covers o stop .term d c ts t ts₁ q)
    (hh : (Tree.binary op l t).height ≤ o.maxDepth) :
    Covers o stop .expression d c ts₀ (.binary op l t) ts₁ (.sum p op q) where
  fits := .sum hp.fits hop hq.fits
  tree := by rw [Phrase.tree, hp.tree, hq.tree]
  tokens := by rw [hp.tokens, hq.tokens, Phrase.tokens, List.append_assoc]; rfl
  first := hp.first
  admitted := (Phrase.admitted_sum ..).2
    ⟨hp.admitted, hq.admitted, by rw [hp.tree, hq.tree]; exact hh⟩

theorem Covers.product (hp : Covers o stop .term d c ts₀ l ts p) (sign : Signed c ts op ts₁)
    (hq : Covers o stop .power d c ts₁ t ts₂ q) (hh : (Tree.binary op l t).height ≤ o.maxDepth) :
    ∃ op?, Covers o stop .term d c ts₀ (.binary op l t) ts₂ (.product p op? q) := by
  cases sign with
  | written hop =>
      refine ⟨some op, .product hp.fits hop hq.fits, ?_, ?_, hp.first, ?_⟩
      · rw [Phrase.tree, hp.tree, hq.tree]; rfl
      · rw [hp.tokens, hq.tokens, Phrase.tokens, List.append_assoc]; rfl
      · rw [Phrase.admitted_product, hp.tree, hq.tree]
        exact ⟨hp.admitted, hq.admitted, hh⟩
  | @adjacent next ts hj =>
      have hf : q.first = next := hq.first
      refine ⟨none, .adjacent (hf ▸ hp.fits) (hf ▸ hj) hq.fits, ?_, ?_, hp.first, ?_⟩
      · rw [Phrase.tree, hp.tree, hq.tree, hf]; rfl
      · rw [hp.tokens, hq.tokens, Phrase.tokens, List.append_assoc]; rfl
      · rw [Phrase.admitted_product, hp.tree, hq.tree, hf]
        exact ⟨hp.admitted, hq.admitted, hh⟩

theorem Covers.power (hp : Covers o stop .application d c ts t (op :: ts₁) p)
    (hop : op.kind = .power) (hq : Covers o stop .power (d + 1) c ts₁ u ts₂ q)
    (hh : (Tree.binary op t u).height ≤ o.maxDepth) :
    Covers o stop .power d c ts (.binary op t u) ts₂ (.power p op q) where
  fits := .raised hp.fits hop hq.fits
  tree := by rw [Phrase.tree, hp.tree, hq.tree]
  tokens := by rw [hp.tokens, hq.tokens, Phrase.tokens, List.append_assoc]; rfl
  first := hp.first
  admitted := (Phrase.admitted_power ..).2
    ⟨hp.admitted, hq.admitted, by rw [hp.tree, hq.tree]; exact hh⟩

theorem Covers.applied {next : Token} (hp : Covers o stop .factor d c ts t (next :: ts₁) p)
    (ht : t.isBareName = true) (hj : c.joins next.kind = true)
    (hq : Covers o stop .application (d + 1) c (next :: ts₁) u ts₂ q)
    (hh : (Tree.binary (.implied .juxtaposition next) t u).height ≤ o.maxDepth) :
    Covers o stop .application d c ts (.binary (.implied .juxtaposition next) t u) ts₂
      (.applied p q) := by
  have hf : q.first = next := hq.first
  refine ⟨.applied (hf ▸ hp.fits) (hp.tree ▸ ht) (hf ▸ hj) hq.fits, ?_, ?_, hp.first, ?_⟩
  · rw [Phrase.tree, hp.tree, hq.tree, hf]
  · rw [hp.tokens, hq.tokens, Phrase.tokens, List.append_assoc]
  · rw [Phrase.admitted_applied, hp.tree, hq.tree, hf]
    exact ⟨hp.admitted, hq.admitted, hh⟩

theorem Covers.parens {k? : Option Token} (ht : op.kind = .leftParen)
    (hp : Covers o stop .expression (d + 1) .plain ts t ts₁ p)
    (hc : Context.plain.closes (front stop ts₁).kind = true)
    (closes : Closes o stop .rightParen ts₁ k? ts₂) :
    Covers o stop .factor d c (op :: ts) t ts₂ (.parens op p k?) := by
  obtain ⟨hk, closed⟩ := closes.closed fun _ => by simpa [Context.closes] using hc
  refine ⟨.parens ht hp.fits closed, hp.tree, ?_, rfl, (Phrase.admitted_parens ..).2 hp.admitted⟩
  rw [hp.tokens, Phrase.tokens, List.cons_append, List.append_assoc, ← hk]

theorem Covers.bars {k? : Option Token} (ht : op.kind = .bar)
    (hp : Covers o stop .expression (d + 1) .bars ts t ts₁ p)
    (hc : Context.bars.closes (front stop ts₁).kind = true)
    (closes : Closes o stop .bar ts₁ k? ts₂) (hh : (Tree.unary op t).height ≤ o.maxDepth) :
    Covers o stop .factor d c (op :: ts) (.unary op t) ts₂ (.bars op p k?) := by
  obtain ⟨hk, closed⟩ := closes.closed fun hb => by
    generalize (front stop ts₁).kind = k at *
    cases k <;> simp_all [Context.closes]
  refine ⟨.bars ht hp.fits closed, by rw [Phrase.tree, hp.tree], ?_, rfl, ?_⟩
  · rw [hp.tokens, Phrase.tokens, List.cons_append, List.append_assoc, ← hk]
  · rw [Phrase.admitted_bars, hp.tree]
    exact ⟨hp.admitted, hh⟩

theorem Covers.sign (ht : op.kind = .plus ∨ op.kind = .minus)
    (hp : Covers o stop .application (d + 1) c ts t ts₁ p)
    (hh : (Tree.unary op t).height ≤ o.maxDepth) :
    Covers o stop .factor d c (op :: ts) (.unary op t) ts₁ (.sign op p) where
  fits := .sign ht hp.fits
  tree := by rw [Phrase.tree, hp.tree]
  tokens := by rw [hp.tokens, Phrase.tokens, List.cons_append]
  first := rfl
  admitted := (Phrase.admitted_sign ..).2 ⟨hp.admitted, by rw [hp.tree]; exact hh⟩

end Covers

theorem Reads.gives {r : Rule} {d : Nat} {ts ts' : List Token} {t : Tree}
    (h : Reads o stop r d c ts t ts') (hw : ∀ t ∈ ts, t.kind ≠ .endOfInput) :
    r.Gives o stop d c ts t ts' := by
  induction h with
  | expression _ _ ih ih' =>
      obtain ⟨p, hp⟩ := ih hw
      exact ih' (hp.ne_end hw) _ p (hp.lift .term)
  | sumEnd => exact fun ts₀ p hp => ⟨p, hp⟩
  | sumStep hop _ hh _ ih ih' =>
      intro ts₀ p hp
      obtain ⟨q, hq⟩ := ih fun t ht => hw t (List.mem_cons_of_mem _ ht)
      exact ih' (hq.ne_end fun t ht => hw t (List.mem_cons_of_mem _ ht)) ts₀ _ (hp.sum hop hq hh)
  | term _ _ ih ih' =>
      obtain ⟨p, hp⟩ := ih hw
      exact ih' (hp.ne_end hw) _ p (hp.lift .power)
  | productEnd => exact fun ts₀ p hp => ⟨p, hp⟩
  | productStep sign _ hh _ ih ih' =>
      intro ts₀ p hp
      have hw₀ := sign.ne_end hw
      obtain ⟨q, hq⟩ := ih hw₀
      obtain ⟨op?, hpq⟩ := hp.product sign hq hh
      exact ih' (hq.ne_end hw₀) ts₀ _ hpq
  | power _ _ ih =>
      obtain ⟨p, hp⟩ := ih hw
      exact ⟨p, hp.lift .application⟩
  | raised _ hop _ _ hh ih ih' =>
      obtain ⟨p, hp⟩ := ih hw
      obtain ⟨q, hq⟩ := ih' fun t ht => hp.ne_end hw t (List.mem_cons_of_mem _ ht)
      exact ⟨_, hp.power hop hq hh⟩
  | application _ h ih =>
      obtain ⟨p, hp⟩ := ih hw
      exact ⟨p, hp.lift fun hf => .factor hf (hp.tree ▸ h)⟩
  | applied _ ht hj _ _ hh ih ih' =>
      obtain ⟨p, hp⟩ := ih hw
      obtain ⟨q, hq⟩ := ih' (hp.ne_end hw)
      exact ⟨_, hp.applied ht hj hq hh⟩
  | parens ht _ inner closes ih =>
      obtain ⟨p, hp⟩ := ih fun t ht => hw t (List.mem_cons_of_mem _ ht)
      exact ⟨_, hp.parens ht (inner.stops trivial) closes⟩
  | bars ht _ inner closes hh ih =>
      obtain ⟨p, hp⟩ := ih fun t ht => hw t (List.mem_cons_of_mem _ ht)
      exact ⟨_, hp.bars ht (inner.stops trivial) closes hh⟩
  | sign ht _ _ hh ih =>
      obtain ⟨p, hp⟩ := ih fun t ht => hw t (List.mem_cons_of_mem _ ht)
      exact ⟨_, hp.sign ht hh⟩
  | @leaf d c t ts ht hd =>
      have : t.kind ≠ .endOfInput := hw t List.mem_cons_self
      refine ⟨.operand t, .operand ht, rfl, ?_, rfl, (Phrase.admitted_operand t).2 hd⟩
      rw [Phrase.tokens, if_neg this]
      rfl
  | @missing d c ts hl h hd =>
      cases ts with
      | nil =>
          exact ⟨.operand (.finish stop), .missing (spare_of_isLenient hl), rfl, rfl, rfl,
            (Phrase.admitted_operand _).2 hd⟩
      | cons t ts => exact absurd h (hw t List.mem_cons_self)

/-- A text has the trees of the phrases that it starts with. -/
theorem parse_eq_ok_iff_heads {scan : Scan} {t : Tree}
    (hw : ∀ t ∈ scan.tokens, t.kind ≠ .endOfInput) (hne : scan.tokens ≠ []) :
    parse o scan = .ok t ↔ ∃ (p : Phrase) (rest : List Token),
      p.Heads o.strictness scan rest ∧ p.Admitted o 0 ∧ p.tree = t := by
  rw [parse_eq_ok_iff hne]
  constructor
  · rintro ⟨rest, hr, hl⟩
    obtain ⟨p, hp⟩ := hr.gives hw
    refine ⟨p, rest, ⟨hp.fits, hp.tokens, hr.stops trivial, fun hs => hl ?_⟩, hp.admitted, hp.tree⟩
    simp [Options.isLenient, hs]
  · rintro ⟨p, rest, hp, ha, rfl⟩
    have hr := (hp.fits.reads (hp.precedes hw) ha).whole hp.closes
    refine ⟨rest, hp.tokens ▸ hr, fun hl => hp.all ?_⟩
    cases hs : o.strictness with
    | strict => rfl
    | lenient => simp [Options.isLenient, hs] at hl

end Reckon.Parser
