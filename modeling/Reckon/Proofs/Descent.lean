import Mathlib.Data.List.Chain
import Mathlib.Logic.Relation
import Reckon.Proofs.Restoring

namespace Reckon.Parser

structure Start where
  rule : Rule
  state : State

namespace Start

def weight (a : Start) : Nat := a.rule.weight a.state

def reserve (a : Start) : Nat := a.state.depth + a.state.rest.length

end Start

/-- Reading from `a` asks what reading from `b` gives: if it gave something else, and all others the
same, reading from `a` would go another way. -/
def Uses (o : Options) (stop : Position) (a b : Start) : Prop :=
  ∃ again : Rule → Parser Tree,
    (∀ c : Start, c ≠ b → again c.rule c.state = run o stop c.rule c.state) ∧
      rule o stop again a.rule a.state ≠ rule o stop (run o stop) a.rule a.state

/-- What is true of a start `b` that is used from `a`. -/
structure Below (b a : Start) : Prop where
  weight : b.weight < a.weight
  rest : b.state.rest <:+ a.state.rest
  reserve : b.reserve ≤ a.reserve
  turn : a.rule.isChain = true → 0 < a.state.rest.length ∧
    (b.rule.isChain = true → b.state.rest.length < a.state.rest.length)

variable {o : Options} {stop : Position} {r : Rule} {s s' : State} {a b : Start} {t : Tree}
  {again : Rule → Parser Tree}

structure Returned (stop : Position) (r : Rule) (s s' : State) : Prop where
  moves : Moves stop r s.rest s'.rest
  kept : State.Kept s s'

/-- `again` reads as `run` does from whatever is below `a`. -/
def Agrees (o : Options) (stop : Position) (a : Start) (again : Rule → Parser Tree) : Prop :=
  ∀ b, Below b a → again b.rule b.state = run o stop b.rule b.state

def Same (s : State) (p p' : Parser Tree) : Prop := Alike s (fun _ _ => True) p p'

section Below

variable {r' : Rule}

theorem Below.of_length_lt (hs : s'.rest <:+ s.rest) (hl : s'.rest.length < s.rest.length)
    (hd : s'.depth ≤ s.depth + 1) : Below ⟨r', s'⟩ ⟨r, s⟩ := by
  have hr := r'.rank_le
  refine ⟨?_, hs, ?_, fun _ => ⟨Nat.zero_lt_of_lt hl, fun _ => hl⟩⟩
  · simp only [Start.weight, Rule.weight]
    omega
  · simp only [Start.reserve]
    omega

theorem Below.of_kept (hs : State.Kept s s') (hl : s'.rest.length < s.rest.length) :
    Below ⟨r', s'⟩ ⟨r, s⟩ := .of_length_lt hs.rest hl (hs.depth ▸ Nat.le_succ _)

theorem Below.of_deeper (hs : State.Kept s s') (hl : s'.rest.length < s.rest.length) :
    Below ⟨r', s'.deeper⟩ ⟨r, s⟩ := .of_length_lt hs.rest hl (hs.depth ▸ Nat.le_refl _)

theorem Below.of_rank_lt (hr : r'.rank < r.rank) (hs : State.Kept s s')
    (ht : r.isChain = true → 0 < s.rest.length ∧ r'.isChain = false) : Below ⟨r', s'⟩ ⟨r, s⟩ := by
  have hd := hs.depth
  have hl := hs.rest.length_le
  refine ⟨?_, hs.rest, ?_, fun hc => ⟨(ht hc).1, fun hc' => ?_⟩⟩
  · simp only [Start.weight, Rule.weight]
    omega
  · simp only [Start.reserve]
    omega
  · rw [(ht hc).2] at hc'
    cases hc'

end Below

section Same

variable {α : Type} {P : α → State → Prop} {p p' : Parser α} {q q' : Parser Tree}

theorem Alike.restored (h : Alike s P p p') (hr : Restores p') :
    Alike s (fun a s' => P a s' ∧ State.Kept s s') p p' :=
  ⟨h.eq, fun a s' hp => ⟨h.post a s' hp, hr.ok hp⟩⟩

theorem Alike.same {P : Tree → State → Prop} (h : Alike s P q q') : Same s q q' :=
  h.mono fun _ _ _ => trivial

theorem Same.refl : Same s q q := Alike.refl fun _ _ _ => trivial

theorem Same.within {enter leave : State → State} (h : Same (enter s) q q') :
    Same s (within enter leave q) (within enter leave q') := by
  refine ⟨?_, fun _ _ _ => trivial⟩
  simp only [Parser.within, h.eq]

theorem Same.nested (t : Token) (h : Same s.deeper q q') :
    Same s (nested o t q) (nested o t q') := by
  have hw : Same s (Parser.within State.deeper State.shallower q)
      (Parser.within State.deeper State.shallower q') := h.within
  refine ⟨?_, fun _ _ _ => trivial⟩
  simp only [nested_apply, hw.eq]

theorem Same.insideBars (h : Same (s.withBars (s.bars + 1)) q q') :
    Same s (insideBars q) (insideBars q') := by
  refine Same.within ?_
  exact h

theorem Same.outsideBars (h : Same (s.withBars 0) q q') :
    Same s (outsideBars q) (outsideBars q') := by
  refine ⟨?_, fun _ _ _ => trivial⟩
  rw [outsideBars_apply, outsideBars_apply]
  exact h.within.eq

theorem Agrees.alike (h : Agrees o stop a again) (hb : Below ⟨r, s⟩ a) :
    Alike s (fun _ s' => Returned stop r s s') (again r) (run o stop r) :=
  ⟨h ⟨r, s⟩ hb, fun _ _ hr => ⟨moves_of_run hr, (Restores.run r).ok hr⟩⟩

theorem Agrees.chain {first : Rule} {next : Tree → Rule} (h : Agrees o stop ⟨r, s⟩ again)
    (hr : r.isChain = false) (hf : first.rank < r.rank) (hn : ∀ t, (next t).rank < r.rank) :
    Same s (again first >>= fun t => again (next t))
      (run o stop first >>= fun t => run o stop (next t)) := by
  have hc : r.isChain ≠ true := by simp [hr]
  refine Alike.bind (h.alike (.of_rank_lt hf (.refl s) (absurd · hc))) ?_
  intro t s₁ h₁
  exact (h.alike (.of_rank_lt (hn t) h₁.kept (absurd · hc))).same

theorem same_expression (h : Agrees o stop ⟨.expression, s⟩ again) :
    Same s (rule o stop again .expression) (rule o stop (run o stop) .expression) :=
  h.chain rfl (by decide) fun _ => by simp [Rule.rank]

theorem same_sum (left : Tree) (h : Agrees o stop ⟨.sum left, s⟩ again) :
    Same s (rule o stop again (.sum left)) (rule o stop (run o stop) (.sum left)) := by
  refine Alike.bind .peek ?_
  rintro _ s ⟨rfl, rfl⟩
  refine .ite (fun hk => ?_) fun _ => Same.refl
  have hk : (s.next stop).kind ≠ .endOfInput := by rcases hk with hk | hk <;> simp [hk]
  have hl := length_tail_lt hk
  refine Alike.bind (Alike.skip.restored .skip) ?_
  rintro _ s₁ ⟨hs, h₁⟩
  rw [← hs] at hl
  refine Alike.bind (h.alike (.of_kept h₁ hl)) fun t s₂ h₂ => Alike.bind (.bounded _) ?_
  rintro t₃ s₂ rfl
  have hl₂ := Nat.lt_of_le_of_lt h₂.moves.length_le hl
  exact (h.alike (.of_kept (h₁.trans h₂.kept) hl₂)).same

theorem same_term (h : Agrees o stop ⟨.term, s⟩ again) :
    Same s (rule o stop again .term) (rule o stop (run o stop) .term) :=
  h.chain rfl (by decide) fun _ => by simp [Rule.rank]

theorem same_product (left : Tree) (h : Agrees o stop ⟨.product left, s⟩ again) :
    Same s (rule o stop again (.product left)) (rule o stop (run o stop) (.product left)) := by
  refine Alike.bind (alike_productSign.restored .productSign) ?_
  rintro (_ | op) s₁ ⟨h₁, hs⟩
  · exact Same.refl
  · obtain ⟨hk, -, hmoves⟩ := h₁
    have hpos := Nat.zero_lt_of_lt (length_tail_lt hk)
    refine Alike.bind (h.alike (.of_rank_lt (by simp [Rule.rank]) hs fun _ => ⟨hpos, rfl⟩))
      fun t s₂ h₂ => Alike.bind (.bounded _) ?_
    rintro t₃ s₂ rfl
    have hl : s₂.rest.length < s.rest.length := by
      rcases hmoves with hr | hr
      · have hm := h₂.moves
        rw [hr] at hm
        exact hm.length_lt rfl hk
      · exact Nat.lt_of_le_of_lt h₂.moves.length_le hr
    exact (h.alike (.of_kept (hs.trans h₂.kept) hl)).same

theorem same_power (h : Agrees o stop ⟨.power, s⟩ again) :
    Same s (rule o stop again .power) (rule o stop (run o stop) .power) := by
  refine Alike.bind (h.alike (.of_rank_lt (by decide) (.refl s) nofun)) ?_
  intro t s₁ h₁
  refine Alike.bind .peek ?_
  rintro _ s₁ ⟨rfl, rfl⟩
  refine .ite (fun hk => ?_) fun _ => Same.refl
  have hk : (s₁.next stop).kind ≠ .endOfInput := by simp [hk]
  have hl := length_tail_lt hk
  refine Alike.bind (Alike.skip.restored .skip) ?_
  rintro _ s₂ ⟨hs, h₂⟩
  rw [← hs] at hl
  have hl₂ := Nat.lt_of_lt_of_le hl h₁.moves.length_le
  have he := h.alike (r := .power) (.of_deeper (h₁.kept.trans h₂) hl₂)
  exact Alike.bind (Same.nested _ he.same) fun _ _ _ => Same.refl

theorem same_application (h : Agrees o stop ⟨.application, s⟩ again) :
    Same s (rule o stop again .application) (rule o stop (run o stop) .application) := by
  refine Alike.bind (h.alike (.of_rank_lt (by decide) (.refl s) nofun)) ?_
  intro t s₁ h₁
  refine Alike.bind .peek ?_
  rintro _ s₁ ⟨rfl, rfl⟩
  refine Alike.bind (.continues _) ?_
  rintro _ s₁ ⟨rfl, rfl⟩
  refine .ite (fun hk => ?_) fun _ => Same.refl
  have hk : (s₁.next stop).kind ≠ .endOfInput := fun he => by
    simp [he, State.continues, Kind.startsOperand] at hk
  have hs : (s.next stop).kind ≠ .endOfInput := fun he => hk (by
    rw [State.next, h₁.moves.stays he]
    exact he)
  have ha := h.alike (r := .application) (.of_deeper h₁.kept (h₁.moves.length_lt rfl hs))
  exact Alike.bind (Same.nested _ ha.same) fun _ _ _ => Same.refl

theorem Agrees.past (h : Agrees o stop ⟨.factor, s⟩ again) {s₁ : State}
    (hs : State.Kept s.deeper s₁) (hl : s₁.rest.length < s.rest.length) (n : Nat) (r : Rule) :
    Same (s₁.withBars n) (again r) (run o stop r) := by
  have hb : Below ⟨r, s₁.withBars n⟩ ⟨.factor, s⟩ :=
    .of_length_lt hs.rest hl (Nat.le_of_eq hs.depth)
  exact (h.alike hb).same

theorem same_operand (h : Agrees o stop ⟨.factor, s⟩ again) :
    Same s.deeper (operand o stop again (s.next stop))
      (operand o stop (run o stop) (s.next stop)) := by
  have hskip : (s.next stop).kind ≠ .endOfInput → Alike s.deeper
      (fun _ s' => s'.rest.length < s.rest.length ∧ State.Kept s.deeper s') skip skip := fun hk =>
    (Alike.skip.restored .skip).mono fun _ _ h₁ => ⟨h₁.1 ▸ length_tail_lt hk, h₁.2⟩
  simp only [operand]
  split <;> rename_i hk
  · refine Alike.bind (hskip (by simp [hk])) fun _ s₁ h₁ => ?_
    exact Alike.bind (h.past h₁.2 h₁.1 0 .expression).outsideBars fun _ _ _ => Same.refl
  · refine Alike.bind (hskip (by simp [hk])) fun _ s₁ h₁ => ?_
    exact Alike.bind (h.past h₁.2 h₁.1 (s₁.bars + 1) .expression).insideBars
      fun _ _ _ => Same.refl
  · refine Alike.bind (hskip (by simp [hk])) fun _ s₁ h₁ => ?_
    exact Alike.bind (h.past h₁.2 h₁.1 s₁.bars .application) fun _ _ _ => Same.refl
  · refine Alike.bind (hskip (by simp [hk])) fun _ s₁ h₁ => ?_
    exact Alike.bind (h.past h₁.2 h₁.1 s₁.bars .application) fun _ _ _ => Same.refl
  all_goals exact Same.refl

theorem same_factor (h : Agrees o stop ⟨.factor, s⟩ again) :
    Same s (rule o stop again .factor) (rule o stop (run o stop) .factor) := by
  refine Alike.bind .peek ?_
  rintro _ s ⟨rfl, rfl⟩
  exact (same_operand h).nested _

theorem same_rule (h : Agrees o stop a again) :
    Same a.state (rule o stop again a.rule) (rule o stop (run o stop) a.rule) := by
  obtain ⟨r, s⟩ := a
  cases r with
  | expression => exact same_expression h
  | sum left => exact same_sum left h
  | term => exact same_term h
  | product left => exact same_product left h
  | power => exact same_power h
  | application => exact same_application h
  | factor => exact same_factor h

theorem Uses.below (h : Uses o stop a b) : Below b a := by
  obtain ⟨again, hagain, hne⟩ := h
  refine Classical.byContradiction fun hb => hne (same_rule fun c hc => hagain c ?_).eq
  rintro rfl
  exact hb hc

end Same

section Used

open Classical in
noncomputable def failingAt (o : Options) (stop : Position) (b : Start) (e : SyntaxError)
    (r : Rule) : Parser Tree := fun s =>
  if (⟨r, s⟩ : Start) = b then .error e s else run o stop r s

theorem uses_of_fails
    (h : ∀ e, ∃ s', rule o stop (failingAt o stop b e) a.rule a.state = .error e s') :
    Uses o stop a b := by
  -- reading from `a` does not fail with both of two faults, so one of them tells that `b` is asked
  obtain ⟨e, he⟩ : ∃ e, rule o stop (failingAt o stop b e) a.rule a.state ≠
      rule o stop (run o stop) a.rule a.state := by
    by_contra! hall
    obtain ⟨s₁, h₁⟩ := h ⟨.unexpectedEnd, stop⟩
    obtain ⟨s₂, h₂⟩ := h ⟨.tooDeep 0, stop⟩
    rw [hall] at h₁ h₂
    cases h₁.symm.trans h₂
  exact ⟨failingAt o stop b e, fun c hc => if_neg hc, he⟩

theorem uses_parens (hk : (s.next stop).kind = .leftParen) (hd : s.depth < o.maxDepth) :
    Uses o stop ⟨.factor, s⟩ ⟨.expression, ⟨s.rest.tail, s.depth + 1, 0⟩⟩ := by
  refine uses_of_fails fun e => ⟨⟨s.rest.tail, s.depth, s.bars⟩, ?_⟩
  simp [rule, bind_apply, peek_apply, nested_apply, hd, within, operand, hk, skip_apply,
    outsideBars_apply, failingAt, State.deeper, State.shallower, State.withBars]

theorem uses_next_turn {left right : Tree}
    (hk : (s.next stop).kind = .plus ∨ (s.next stop).kind = .minus)
    (hr : run o stop .term ⟨s.rest.tail, s.depth, s.bars⟩ = .ok right s')
    (hh : (Tree.binary (s.next stop) left right).height ≤ o.maxDepth) :
    Uses o stop ⟨.sum left, s⟩ ⟨.sum (.binary (s.next stop) left right), s'⟩ := by
  refine uses_of_fails fun e => ⟨s', ?_⟩
  simp [rule, bind_apply, peek_apply, hk, skip_apply, failingAt, hr, bounded_apply, hh]

theorem wellFounded_uses (o : Options) (stop : Position) :
    WellFounded fun b a => Uses o stop a b :=
  Subrelation.wf (fun h => h.below.weight) (InvImage.wf Start.weight Nat.lt_wfRel.wf)

/-- The rules are equations with one solution. -/
theorem eq_run_iff : (∀ r, again r = rule o stop again r) ↔ again = run o stop := by
  constructor
  · intro h
    have hrun : ∀ a : Start, again a.rule a.state = run o stop a.rule a.state := fun a => by
      induction a using (InvImage.wf Start.weight Nat.lt_wfRel.wf).induction with
      | _ a ih =>
          rw [h, run_eq]
          exact (same_rule fun b hb => ih b hb.weight).eq
    funext r s
    exact hrun ⟨r, s⟩
  · rintro rfl r
    exact run_eq r

theorem rest_suffix (h : Relation.ReflTransGen (Uses o stop) a b) :
    b.state.rest <:+ a.state.rest := by
  induction h with
  | refl => exact List.suffix_refl _
  | tail _ hu ih => exact hu.below.rest.trans ih

theorem reserve_le (h : Relation.ReflTransGen (Uses o stop) a b) : b.reserve ≤ a.reserve := by
  induction h with
  | refl => exact Nat.le_refl _
  | tail _ hu ih => exact Nat.le_trans hu.below.reserve ih

theorem turns_lt_length {turns : List Start} (hu : List.IsChain (Uses o stop) (a :: (turns ++ [b])))
    (ha : a.rule.isChain = true) (hc : ∀ c ∈ turns, c.rule.isChain = true) :
    turns.length < a.state.rest.length := by
  induction turns generalizing a with
  | nil =>
      obtain ⟨hab, -⟩ := List.isChain_cons_cons.1 hu
      exact (hab.below.turn ha).1
  | cons c turns ih =>
      obtain ⟨hac, hu⟩ := List.isChain_cons_cons.1 hu
      rw [List.forall_mem_cons] at hc
      exact Nat.lt_of_le_of_lt (ih hu hc.1 hc.2) ((hac.below.turn ha).2 hc.1)

theorem turns_le_length {turns : List Start} (hu : List.IsChain (Uses o stop) (a :: (turns ++ [b])))
    (hc : ∀ c ∈ turns, c.rule.isChain = true) : turns.length ≤ a.state.rest.length := by
  cases turns with
  | nil => exact Nat.zero_le _
  | cons c turns =>
      obtain ⟨hac, hu⟩ := List.isChain_cons_cons.1 hu
      rw [List.forall_mem_cons] at hc
      exact Nat.le_trans (turns_lt_length hu hc.1 hc.2) hac.below.rest.length_le

end Used

section End

variable {d : Nat} {c : Context} {ts ts' : List Token}

def Rule.Supplies (o : Options) (last : Token) : Rule → Tree → Prop
  | .sum left, t | .product left, t => t = left
  | _, t => o.isLenient = true ∧ t = .leaf last

theorem Signed.ne_end_front {op : Token} {ts₀ : List Token} (h : Signed c ts op ts₀) :
    (front stop ts).kind ≠ .endOfInput := by
  cases h with
  | written h => rcases h with h | h <;> simp [h]
  | adjacent h => exact joins_ne_end h

theorem Reads.supplies (h : Reads o stop r d c ts t ts')
    (hk : (front stop ts).kind = .endOfInput) : r.Supplies o (front stop ts) t := by
  induction h with
  | expression first _ ih ih' | term first _ ih ih' =>
      obtain ⟨hl, rfl⟩ := ih hk
      rw [first.moves.stays hk] at ih'
      exact ⟨hl, ih' hk⟩
  | sumEnd | productEnd => rfl
  | sumStep hop => rcases hop with hop | hop <;> simp [hop] at hk
  | productStep sign => exact absurd hk sign.ne_end_front
  | power _ _ ih | application _ _ ih => exact ih hk
  | raised base hop =>
      have hs := base.moves.stays hk
      rw [← hs] at hk
      simp [hop] at hk
  | applied callee _ hj =>
      have hs := callee.moves.stays hk
      rw [← hs] at hk
      exact absurd hk (joins_ne_end hj)
  | parens ht | bars ht => simp [ht] at hk
  | sign ht => rcases ht with ht | ht <;> simp [ht] at hk
  | leaf ht => rcases ht with ht | ht | ht <;> simp [ht] at hk
  | missing hl => exact ⟨hl, rfl⟩

end End

/-- How a rule that is not in the middle of a chain succeeds. At the end of the tokens what is
missing is supplied and nothing read. -/
structure Progresses (o : Options) (stop : Position) (s : State) (t : Tree) (s' : State) :
    Prop where
  reads : (s.next stop).kind ≠ .endOfInput → s'.rest.length < s.rest.length
  supplies : (s.next stop).kind = .endOfInput →
    o.isLenient = true ∧ s'.rest = s.rest ∧ t = .leaf (s.next stop)

theorem progresses_of_run (h : run o stop r s = .ok t s') (hr : r.isChain = false) :
    Progresses o stop s t s' := by
  refine ⟨(moves_of_run h).length_lt hr, fun hk => ?_⟩
  have hs := (run_eq_ok_iff.1 h).1.supplies hk
  have hm := (moves_of_run h).stays hk
  cases r with
  | sum | product => cases hr
  | expression | term | power | application | factor => exact ⟨hs.1, hm, hs.2⟩

/-- Reading comes to an end: there is no endless row of rules that use each other, so that nothing
but `run` does as the rules say. However a rule ends, the tokens that are left are the last of those
there were; it does not succeed without reading a token, unless there is none and what is missing is
supplied. So a chain has no more turns than there are tokens, and no operand is deeper than tokens
were read for it. -/
theorem reading_comes_to_an_end (o : Options) (stop : Position) (r : Rule) (s : State) :
    (Acc (fun b a => Uses o stop a b) ⟨r, s⟩ ∧
        ∀ again : Rule → Parser Tree, (∀ r, again r = rule o stop again r) ↔ again = run o stop) ∧
      (outcome (run o stop r) s).2.rest <:+ s.rest ∧
      (r.isChain = false → ∀ t s', run o stop r s = .ok t s' → Progresses o stop s t s') ∧
      (∀ turns last, List.IsChain (Uses o stop) (⟨r, s⟩ :: (turns ++ [last])) →
        (∀ a ∈ turns, a.rule.isChain = true) → turns.length ≤ s.rest.length) ∧
      ∀ a, Relation.ReflTransGen (Uses o stop) ⟨r, s⟩ a →
        a.state.rest <:+ s.rest ∧
          a.state.depth + a.state.rest.length ≤ s.depth + s.rest.length := by
  refine ⟨⟨(wellFounded_uses o stop).apply _, fun _ => eq_run_iff⟩, (Restores.run r s).rest,
    ?_, ?_, ?_⟩
  · intro hr t s' h
    exact progresses_of_run h hr
  · intro turns last hu hc
    exact turns_le_length hu hc
  · intro a hu
    exact ⟨rest_suffix hu, reserve_le hu⟩

theorem turns_and_operands_are_paid_for :
    (∃ first second third : Start, first.state.rest = (Scan.ofString "+2+3").tokens ∧
      second.rule.isChain = true ∧ List.IsChain (Uses .default .start) [first, second, third] ∧
        [second].length ≤ first.state.rest.length) ∧
      Uses .default .start ⟨.factor, ⟨(Scan.ofString "(2").tokens, 0, 0⟩⟩
        ⟨.expression, ⟨(Scan.ofString "(2").tokens.tail, 1, 0⟩⟩ ∧
      1 + (Scan.ofString "(2").tokens.tail.length ≤ 0 + (Scan.ofString "(2").tokens.length := by
  constructor
  · have hr : run .default .start .term ⟨(Scan.ofString "+2+3").tokens.tail, 0, 0⟩ =
        .ok (.leaf ⟨.integer, "2", 1, ⟨1, 1, 2⟩⟩) ⟨(Scan.ofString "+2+3").tokens.drop 2, 0, 0⟩ := by
      rfl
    have hr' : run .default .start .term ⟨(Scan.ofString "+2+3").tokens.drop 3, 0, 0⟩ =
        .ok (.leaf ⟨.integer, "3", 1, ⟨3, 1, 4⟩⟩) ⟨[], 0, 0⟩ := by
      rfl
    let one : Tree := .leaf ⟨.integer, "1", 1, .start⟩
    let two : Tree := .binary ⟨.plus, "+", 1, ⟨0, 1, 1⟩⟩ one (.leaf ⟨.integer, "2", 1, ⟨1, 1, 2⟩⟩)
    let three : Tree := .binary ⟨.plus, "+", 1, ⟨2, 1, 3⟩⟩ two (.leaf ⟨.integer, "3", 1, ⟨3, 1, 4⟩⟩)
    have hu : Uses .default .start ⟨.sum one, ⟨(Scan.ofString "+2+3").tokens, 0, 0⟩⟩
        ⟨.sum two, ⟨(Scan.ofString "+2+3").tokens.drop 2, 0, 0⟩⟩ :=
      uses_next_turn (.inl (by decide)) hr (by decide)
    have hu' : Uses .default .start ⟨.sum two, ⟨(Scan.ofString "+2+3").tokens.drop 2, 0, 0⟩⟩
        ⟨.sum three, ⟨[], 0, 0⟩⟩ := uses_next_turn (.inl (by decide)) hr' (by decide)
    have hc := List.isChain_cons_cons.2 ⟨hu, List.isChain_pair.2 hu'⟩
    obtain ⟨-, -, -, ht, -⟩ := reading_comes_to_an_end .default .start (.sum one)
      ⟨(Scan.ofString "+2+3").tokens, 0, 0⟩
    exact ⟨_, _, _, rfl, rfl, hc, ht [_] _ hc (List.forall_mem_singleton.2 rfl)⟩
  · have hu : Uses .default .start ⟨.factor, ⟨(Scan.ofString "(2").tokens, 0, 0⟩⟩
        ⟨.expression, ⟨(Scan.ofString "(2").tokens.tail, 1, 0⟩⟩ :=
      uses_parens (by decide) (by decide)
    obtain ⟨-, -, -, -, hd⟩ := reading_comes_to_an_end .default .start .factor
      ⟨(Scan.ofString "(2").tokens, 0, 0⟩
    exact ⟨hu, (hd _ (.single hu)).2⟩

end Reckon.Parser
