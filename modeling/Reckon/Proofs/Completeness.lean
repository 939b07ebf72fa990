import Reckon.Proofs.Outcome
import Reckon.Proofs.Phrase

namespace Reckon.Parser

/-- The kinds of token that may follow a phrase without being drawn into it. -/
def Level.Before (c : Context) (k : Kind) : Level → Prop
  | .expression => k ≠ .power ∧ ¬(k = .times ∨ k = .divide) ∧ c.joins k = false
  | .term | .power => k ≠ .power
  | .application | .factor => True

def Level.rule : Level → Rule
  | .expression => .expression
  | .term => .term
  | .power => .power
  | .application => .application
  | .factor => .factor

variable {o : Options} {stop : Position} {spare : Option Token} {c : Context} {lvl : Level}
  {p : Phrase} {k : Kind} {d : Nat} {ts ts' ts₁ : List Token}

theorem Context.closes_of_ends (c : Context) (h : k.ends = true) : c.closes k = true := by
  cases c <;> cases k <;> first | exact h | rfl

theorem Context.before_of_closes (h : c.closes k = true) : Level.expression.Before c k := by
  cases c <;> cases k <;>
    simp_all [Context.closes, Kind.ends, Level.Before, Context.joins, Kind.startsOperand]

theorem Context.not_sign_of_closes (h : c.closes k = true) : ¬(k = .plus ∨ k = .minus) := by
  rintro (rfl | rfl) <;> cases c <;> cases h

theorem spare_of_isLenient (h : o.isLenient = true) :
    o.strictness.spare stop = some (.finish stop) := by
  have hm : o.strictness = .lenient := of_decide_eq_true h
  rw [hm, Strictness.spare]

theorem isLenient_of_spare (h : (o.strictness.spare stop).isSome = true) :
    o.isLenient = true := by
  cases hm : o.strictness with
  | strict => rw [hm] at h; cases h
  | lenient => exact decide_eq_true hm

theorem eq_of_spare {m : Strictness} {t : Token} (h : m.spare stop = some t) :
    t = .finish stop := by
  cases m with
  | strict => cases h
  | lenient => exact (Option.some.inj h).symm

/-- Tokens that start with a kind and may follow a phrase of a level. -/
structure Precedes (stop : Position) (c : Context) (lvl : Level) (k : Kind) (ts : List Token) :
    Prop where
  kind : (front stop ts).kind = k
  nil : k = .endOfInput → ts = []
  before : lvl.Before c k

section Precedes

variable {op : Token}

theorem Precedes.imp {lvl' : Level} (h : Precedes stop c lvl k ts)
    (hl : lvl.Before c k → lvl'.Before c k) : Precedes stop c lvl' k ts :=
  { h with before := hl h.before }

theorem Precedes.factor (h : Precedes stop c lvl k ts) : Precedes stop c .factor k ts :=
  h.imp fun _ => trivial

theorem Precedes.sum (hop : op.kind = .plus ∨ op.kind = .minus) :
    Precedes stop c .expression op.kind (op :: ts) := by
  refine ⟨rfl, ?_, ?_⟩
  · rcases hop with hop | hop <;> simp [hop]
  · rcases hop with hop | hop <;> cases c <;>
      simp [hop, Level.Before, Context.joins, Kind.startsOperand]

theorem Precedes.product (hop : op.kind = .times ∨ op.kind = .divide) :
    Precedes stop c .term op.kind (op :: ts) := by
  refine ⟨rfl, ?_, ?_⟩
  · rcases hop with hop | hop <;> simp [hop]
  · rcases hop with hop | hop <;> simp [hop, Level.Before]

theorem Precedes.raised (hop : op.kind = .power) :
    Precedes stop c .application op.kind (op :: ts) :=
  ⟨rfl, fun h => (by rw [hop] at h; cases h), trivial⟩

theorem Precedes.joined (hf : front stop ts = op) (hj : c.joins op.kind = true) :
    Precedes stop c .term op.kind ts := by
  refine ⟨congrArg Token.kind hf, fun h => absurd h (joins_ne_end hj), fun h => ?_⟩
  rw [h] at hj
  cases c <;> cases hj

theorem Precedes.productEnd (h : Precedes stop c .expression k ts) (l : Tree) :
    Reads o stop (.product l) d c ts l ts :=
  .productEnd (h.kind ▸ h.before.2.1) (h.kind ▸ h.before.2.2)

variable {closing : Option Token} {i next : Kind}

theorem Closed.reads (h : Closed (o.strictness.spare stop) k closing i next)
    (hts : (front stop ts).kind = next) : Closes o stop k (closing.toList ++ ts) closing ts := by
  cases h with
  | written h => exact .written h
  | assumed hs h he => exact .assumed (isLenient_of_spare hs) (hts ▸ h)

theorem Closed.closes {c' : Context} (h : Closed spare k closing i next)
    (hk : c'.closes k = true) : c'.closes i = true := by
  cases h with
  | written h => exact h ▸ hk
  | assumed _ _ he => exact c'.closes_of_ends he

theorem Closed.precedes (c' : Context) (h : Closed spare k closing i next)
    (hp : Precedes stop c .factor next ts) (hk : c'.closes k = true) (hn : k ≠ .endOfInput) :
    Precedes stop c' .expression i (closing.toList ++ ts) := by
  have hb := Context.before_of_closes (h.closes hk)
  cases h with
  | written h => exact ⟨rfl, fun he => absurd (h.symm.trans he) hn, hb⟩
  | assumed => exact ⟨hp.kind, hp.nil, hb⟩

end Precedes

theorem Fits.front_eq (h : Fits (o.strictness.spare stop) c lvl p k)
    (hp : Precedes stop c lvl k ts) : front stop (p.tokens ++ ts) = p.first := by
  induction h generalizing ts with
  | term _ ih => exact ih (hp.imp And.left)
  | power _ ih => exact ih (hp.imp id)
  | application _ ih | factor _ _ ih => exact ih (hp.imp fun _ => trivial)
  | sum _ hop _ ih _ =>
      rw [Phrase.tokens, List.append_assoc]
      exact ih (.sum hop)
  | product _ hop _ ih _ =>
      rw [Phrase.tokens, List.append_assoc]
      exact ih (.product hop)
  | raised _ hop _ ih _ =>
      rw [Phrase.tokens, List.append_assoc]
      exact ih (.raised hop)
  | adjacent _ hj _ ih ih' =>
      rw [Phrase.tokens, List.append_assoc]
      exact ih (.joined (ih' (hp.imp id)) hj)
  | applied _ _ hj _ ih ih' =>
      rw [Phrase.tokens, List.append_assoc]
      exact ih (Precedes.joined (ih' hp) hj).factor
  | parens | bars | sign => rfl
  | @operand c t k ht =>
      have : t.kind ≠ .endOfInput := by rcases ht with ht | ht | ht <;> simp [ht]
      simp [Phrase.tokens, this, Phrase.first]
  | @missing c t h =>
      cases hp.nil rfl
      rw [eq_of_spare h]
      rfl

theorem Signed.of_front {next : Token} (hf : front stop ts = next) (hj : c.joins next.kind = true) :
    Signed c ts (between next) ts := by
  obtain ⟨t, us, rfl⟩ := Parser.exists_cons (hf.symm ▸ joins_ne_end hj)
  cases hf
  exact .adjacent hj

theorem Fits.exists_cons (h : Fits (o.strictness.spare stop) c lvl p k)
    (hp : Precedes stop c lvl k ts) (hj : c.joins p.first.kind = true) :
    ∃ us, p.tokens ++ ts = p.first :: us := by
  have hf := h.front_eq hp
  obtain ⟨t, us, hu⟩ := Parser.exists_cons (hf.symm ▸ joins_ne_end hj)
  rw [hu, front_cons] at hf
  exact ⟨us, by rw [hu, hf]⟩

structure Resumes (o : Options) (stop : Position) (d : Nat) (c : Context) (r : Rule)
    (ts : List Token) (r' : Rule) (ts' : List Token) : Prop where
  reads : ∀ u ts₁, Reads o stop r' d c ts' u ts₁ → Reads o stop r d c ts u ts₁
  fails : ∀ e ts₁, Fails o stop r' d c ts' e ts₁ → Fails o stop r d c ts e ts₁

section Resumes

variable {l t : Tree} {op : Token} {r r' r₁ : Rule}

theorem Resumes.trans (h : Resumes o stop d c r ts r' ts') (h' : Resumes o stop d c r' ts' r₁ ts₁) :
    Resumes o stop d c r ts r₁ ts₁ :=
  ⟨fun u us hu => h.reads u us (h'.reads u us hu), fun e us he => h.fails e us (h'.fails e us he)⟩

theorem Resumes.expression (first : Reads o stop .term d c ts t ts₁) :
    Resumes o stop d c .expression ts (.sum t) ts₁ :=
  ⟨fun _ _ => .expression first, fun _ _ => .expressionMore first⟩

theorem Resumes.sum (hop : op.kind = .plus ∨ op.kind = .minus)
    (right : Reads o stop .term d c ts t ts₁) (hh : (Tree.binary op l t).height ≤ o.maxDepth) :
    Resumes o stop d c (.sum l) (op :: ts) (.sum (.binary op l t)) ts₁ :=
  ⟨fun _ _ => .sumStep hop right hh, fun _ _ => .sumMore hop right hh⟩

theorem Resumes.term (first : Reads o stop .power d c ts t ts₁) :
    Resumes o stop d c .term ts (.product t) ts₁ :=
  ⟨fun _ _ => .term first, fun _ _ => .termMore first⟩

theorem Resumes.product (sign : Signed c ts op ts') (right : Reads o stop .power d c ts' t ts₁)
    (hh : (Tree.binary op l t).height ≤ o.maxDepth) :
    Resumes o stop d c (.product l) ts (.product (.binary op l t)) ts₁ :=
  ⟨fun _ _ => .productStep sign right hh, fun _ _ => .productMore sign right hh⟩

end Resumes

/-- What reading owes to a phrase of a level. A chain is read as far as the phrase goes, and from
there it goes on. -/
def Level.Read (o : Options) (stop : Position) (d : Nat) (c : Context) (p : Phrase)
    (ts : List Token) : Level → Prop
  | .expression => Resumes o stop d c .expression (p.tokens ++ ts) (.sum p.tree) ts
  | .term => Resumes o stop d c .term (p.tokens ++ ts) (.product p.tree) ts
  | .power => Reads o stop .power d c (p.tokens ++ ts) p.tree ts
  | .application => Reads o stop .application d c (p.tokens ++ ts) p.tree ts
  | .factor => Reads o stop .factor d c (p.tokens ++ ts) p.tree ts

theorem Level.Read.whole (h : Level.Read o stop d c p ts .expression)
    (hc : c.closes (front stop ts).kind = true) :
    Reads o stop .expression d c (p.tokens ++ ts) p.tree ts :=
  h.reads _ _ (.sumEnd (Context.not_sign_of_closes hc))

theorem Level.Read.alone (h : Level.Read o stop d c p ts .term)
    (hp : Precedes stop c .expression k ts) : Reads o stop .term d c (p.tokens ++ ts) p.tree ts :=
  h.reads _ _ (hp.productEnd _)

/-- A phrase that fits before the tokens after it is read from the tokens it is made of. -/
theorem Fits.reads (h : Fits (o.strictness.spare stop) c lvl p k) (hp : Precedes stop c lvl k ts)
    (ha : p.Admitted o d) : lvl.Read o stop d c p ts := by
  induction h generalizing d ts with
  | term _ ih =>
      have first := ih (hp.imp And.left) ha
      exact .expression (first.alone hp)
  | sum _ hop _ ih ih' =>
      obtain ⟨ha, ha', hh⟩ := (Phrase.admitted_sum ..).1 ha
      have right := ih' (hp.imp And.left) ha'
      rw [Level.Read, Phrase.tokens, List.append_assoc]
      exact (ih (.sum hop) ha).trans (.sum hop (right.alone hp) hh)
  | power _ ih => exact .term (ih (hp.imp id) ha)
  | product _ hop _ ih ih' =>
      obtain ⟨ha, ha', hh⟩ := (Phrase.admitted_product ..).1 ha
      rw [Level.Read, Phrase.tokens, List.append_assoc]
      exact (ih (.product hop) ha).trans (.product (.written hop) (ih' (hp.imp id) ha') hh)
  | adjacent _ hj hq ih ih' =>
      obtain ⟨ha, ha', hh⟩ := (Phrase.admitted_product ..).1 ha
      have hf := hq.front_eq (hp.imp id)
      rw [Level.Read, Phrase.tokens, List.append_assoc]
      exact (ih (.joined hf hj) ha).trans (.product (.of_front hf hj) (ih' (hp.imp id) ha') hh)
  | application _ ih => exact .power (ih (hp.imp fun _ => trivial) ha) (hp.kind ▸ hp.before)
  | raised _ hop _ ih ih' =>
      obtain ⟨ha, ha', hh⟩ := (Phrase.admitted_power ..).1 ha
      rw [Level.Read, Phrase.tokens, List.append_assoc]
      exact .raised (ih (.raised hop) ha) hop ha'.lt (ih' hp ha') hh
  | factor _ hn ih => exact .application (ih (hp.imp id) ha) (hp.kind ▸ hn)
  | applied _ hb hj hq ih ih' =>
      obtain ⟨ha, ha', hh⟩ := (Phrase.admitted_applied ..).1 ha
      have argument := ih' hp ha'
      obtain ⟨us, hus⟩ := hq.exists_cons hp hj
      rw [Level.Read, hus] at argument
      rw [Level.Read, Phrase.tokens, List.append_assoc, hus]
      exact .applied (ih (Precedes.joined (front_cons ..) hj).factor ha) hb hj ha'.lt argument hh
  | parens ht _ closed ih =>
      have ha := (Phrase.admitted_parens ..).1 ha
      have hi := closed.precedes .plain hp rfl nofun
      rw [Level.Read, Phrase.tokens, List.cons_append, List.append_assoc]
      have inner := (ih hi ha).whole (hi.kind ▸ closed.closes rfl)
      exact .parens ht ha.lt inner (closed.reads hp.kind)
  | bars ht _ closed ih =>
      obtain ⟨ha, hh⟩ := (Phrase.admitted_bars ..).1 ha
      have hi := closed.precedes .bars hp rfl nofun
      rw [Level.Read, Phrase.tokens, List.cons_append, List.append_assoc]
      have inner := (ih hi ha).whole (hi.kind ▸ closed.closes rfl)
      exact .bars ht ha.lt inner (closed.reads hp.kind) hh
  | sign ht _ ih =>
      obtain ⟨ha, hh⟩ := (Phrase.admitted_sign ..).1 ha
      exact .sign ht ha.lt (ih (hp.imp id) ha) hh
  | @operand c t k ht =>
      have : t.kind ≠ .endOfInput := by rcases ht with ht | ht | ht <;> simp [ht]
      rw [Level.Read, Phrase.tokens, if_neg this]
      exact .leaf ht ((Phrase.admitted_operand ..).1 ha)
  | @missing c t h =>
      have hl : o.isLenient = true := isLenient_of_spare (by rw [h]; rfl)
      cases hp.nil rfl
      cases eq_of_spare h
      exact .missing hl rfl ((Phrase.admitted_operand ..).1 ha)

def Refuses (o : Options) (stop : Position) (r : Rule) (d : Nat) (c : Context) (ts : List Token) :
    Prop := ∃ t ts', Fails o stop r d c ts (tooDeep o t) ts'

theorem Resumes.refuses {r r' : Rule} (h : Resumes o stop d c r ts r' ts')
    (hr : Refuses o stop r' d c ts') : Refuses o stop r d c ts := by
  obtain ⟨t, ts₁, hf⟩ := hr
  exact ⟨t, ts₁, h.fails _ _ hf⟩

theorem first_excess {A B : Prop} {n m : Nat} (h : ¬(A ∧ B ∧ n ≤ m)) :
    ¬A ∨ A ∧ ¬B ∨ A ∧ B ∧ m < n := by
  by_cases ha : A
  · by_cases hb : B
    · exact .inr (.inr ⟨ha, hb, Nat.lt_of_not_le fun hn => h ⟨ha, hb, hn⟩⟩)
    · exact .inr (.inl ⟨ha, hb⟩)
  · exact .inl ha

/-- The parts of a phrase are tried in the order they are read in, and the whole tree after them. -/
theorem Fits.refused (h : Fits (o.strictness.spare stop) c lvl p k) (hp : Precedes stop c lvl k ts)
    (hn : ¬p.Admitted o d) : Refuses o stop lvl.rule d c (p.tokens ++ ts) := by
  induction h generalizing d ts with
  | term _ ih =>
      obtain ⟨t, ts', hf⟩ := ih (hp.imp And.left) hn
      exact ⟨t, ts', .expressionFirst hf⟩
  | @sum c p op q k hl hop hr ih ih' =>
      have next : Precedes stop c .expression op.kind (op :: (q.tokens ++ ts)) := .sum hop
      rw [Phrase.tokens, List.append_assoc]
      rw [Phrase.admitted_sum] at hn
      rcases first_excess hn with ha | ⟨ha, ha'⟩ | ⟨ha, ha', hh⟩
      · exact ih next ha
      · obtain ⟨t, ts', hf⟩ := ih' (hp.imp And.left) ha'
        exact (hl.reads next ha).refuses ⟨t, ts', .sumRight hop hf⟩
      · have right := (hr.reads (hp.imp And.left) ha').alone hp
        exact (hl.reads next ha).refuses ⟨op, ts, .sumTall hop right hh⟩
  | power _ ih =>
      obtain ⟨t, ts', hf⟩ := ih (hp.imp id) hn
      exact ⟨t, ts', .termFirst hf⟩
  | @product c p op q k hl hop hr ih ih' =>
      have next : Precedes stop c .term op.kind (op :: (q.tokens ++ ts)) := .product hop
      rw [Phrase.tokens, List.append_assoc]
      rw [Phrase.admitted_product] at hn
      rcases first_excess hn with ha | ⟨ha, ha'⟩ | ⟨ha, ha', hh⟩
      · exact ih next ha
      · obtain ⟨t, ts', hf⟩ := ih' (hp.imp id) ha'
        exact (hl.reads next ha).refuses ⟨t, ts', .productRight (.written hop) hf⟩
      · have right := hr.reads (hp.imp id) ha'
        exact (hl.reads next ha).refuses ⟨op, ts, .productTall (.written hop) right hh⟩
  | @adjacent c p q k hl hj hr ih ih' =>
      have next := Precedes.joined (c := c) (hr.front_eq (hp.imp id)) hj
      have sign := Signed.of_front (hr.front_eq (hp.imp id)) hj
      rw [Phrase.tokens, List.append_assoc]
      rw [Phrase.admitted_product] at hn
      rcases first_excess hn with ha | ⟨ha, ha'⟩ | ⟨ha, ha', hh⟩
      · exact ih next ha
      · obtain ⟨t, ts', hf⟩ := ih' (hp.imp id) ha'
        exact (hl.reads next ha).refuses ⟨t, ts', .productRight sign hf⟩
      · have right := hr.reads (hp.imp id) ha'
        exact (hl.reads next ha).refuses ⟨_, ts, .productTall sign right hh⟩
  | application _ ih =>
      obtain ⟨t, ts', hf⟩ := ih (hp.imp fun _ => trivial) hn
      exact ⟨t, ts', .powerBase hf⟩
  | @raised c p op q k hl hop hr ih ih' =>
      have next : Precedes stop c .application op.kind (op :: (q.tokens ++ ts)) := .raised hop
      rw [Phrase.tokens, List.append_assoc]
      rw [Phrase.admitted_power] at hn
      rcases first_excess hn with ha | ⟨ha, ha'⟩ | ⟨ha, ha', hh⟩
      · obtain ⟨t, ts', hf⟩ := ih next ha
        exact ⟨t, ts', .powerBase hf⟩
      · by_cases hd : d < o.maxDepth
        · obtain ⟨t, ts', hf⟩ := ih' hp ha'
          exact ⟨t, ts', .exponent (hl.reads next ha) hop hd hf⟩
        · exact ⟨op, _, .exponentDeep (hl.reads next ha) hop (Nat.le_of_not_lt hd)⟩
      · exact ⟨op, ts, .powerTall (hl.reads next ha) hop ha'.lt (hr.reads hp ha') hh⟩
  | factor _ _ ih =>
      obtain ⟨t, ts', hf⟩ := ih hp.factor hn
      exact ⟨t, ts', .callee hf⟩
  | @applied c p q k hl hb hj hr ih ih' =>
      obtain ⟨us, hus⟩ := hr.exists_cons hp hj
      have next : Precedes stop c .factor q.first.kind (q.first :: us) :=
        (Precedes.joined (front_cons ..) hj).factor
      rw [Phrase.tokens, List.append_assoc, hus]
      rw [Phrase.admitted_applied] at hn
      rcases first_excess hn with ha | ⟨ha, ha'⟩ | ⟨ha, ha', hh⟩
      · obtain ⟨t, ts', hf⟩ := ih next ha
        exact ⟨t, ts', .callee hf⟩
      · by_cases hd : d < o.maxDepth
        · obtain ⟨t, ts', hf⟩ := ih' hp ha'
          rw [hus] at hf
          exact ⟨t, ts', .argument (hl.reads next ha) hb hj hd hf⟩
        · exact ⟨_, _, .argumentDeep (hl.reads next ha) hb hj (Nat.le_of_not_lt hd)⟩
      · have argument := hr.reads hp ha'
        rw [Level.Read, hus] at argument
        exact ⟨_, ts, .applicationTall (hl.reads next ha) hb hj ha'.lt argument hh⟩
  | @parens c t p closing i next ht _ closed ih =>
      rw [Phrase.admitted_parens] at hn
      by_cases hd : d < o.maxDepth
      · obtain ⟨u, ts', hf⟩ := ih (closed.precedes .plain hp rfl nofun) hn
        rw [Phrase.tokens, List.cons_append, List.append_assoc]
        exact ⟨u, ts', .parensInner ht hd hf⟩
      · exact ⟨_, _, .factorDeep (Nat.le_of_not_lt hd)⟩
  | @bars c t p closing i next ht hi closed ih =>
      have hc := closed.precedes .bars hp rfl nofun
      rw [Phrase.tokens, List.cons_append, List.append_assoc]
      rw [Phrase.admitted_bars, not_and] at hn
      by_cases ha : p.Admitted o (d + 1)
      · have inner := (hi.reads hc ha).whole (hc.kind ▸ closed.closes rfl)
        have hh := Nat.lt_of_not_le (hn ha)
        exact ⟨t, ts, .barsTall ht ha.lt inner (closed.reads hp.kind) hh⟩
      · by_cases hd : d < o.maxDepth
        · obtain ⟨u, ts', hf⟩ := ih hc ha
          exact ⟨u, ts', .barsInner ht hd hf⟩
        · exact ⟨_, _, .factorDeep (Nat.le_of_not_lt hd)⟩
  | @sign c t p k ht hi ih =>
      rw [Phrase.admitted_sign, not_and] at hn
      by_cases ha : p.Admitted o (d + 1)
      · have operand := hi.reads (hp.imp id) ha
        exact ⟨t, ts, .signTall ht ha.lt operand (Nat.lt_of_not_le (hn ha))⟩
      · by_cases hd : d < o.maxDepth
        · obtain ⟨u, ts', hf⟩ := ih (hp.imp id) ha
          exact ⟨u, ts', .signOperand ht hd hf⟩
        · exact ⟨_, _, .factorDeep (Nat.le_of_not_lt hd)⟩
  | operand | missing =>
      rw [Phrase.admitted_operand] at hn
      exact ⟨_, _, .factorDeep (Nat.le_of_not_lt hn)⟩

end Reckon.Parser
