import Reckon.Proofs.Outcome

namespace Reckon.Parser

def outcome {α : Type} (p : Parser α) (s : State) : Except SyntaxError α × State :=
  match p s with
  | .ok a s' => (.ok a, s')
  | .error e s' => (.error e, s')

def effect {α : Type} (p : Parser α) (s : State) : Except SyntaxError α × List Token :=
  ((outcome p s).1, (outcome p s).2.rest)

/-- Depth and bars are as they were, and the tokens that are left are the last of those there
were. -/
structure State.Kept (s s' : State) : Prop where
  depth : s'.depth = s.depth
  bars : s'.bars = s.bars
  rest : s'.rest <:+ s.rest

def Restores {α : Type} (p : Parser α) : Prop := ∀ s, State.Kept s (outcome p s).2

/-- What is counted down after `p` is not zero. -/
structure CountsBack (p : Parser Tree) : Prop where
  depth : ∀ s : State, 0 < (outcome p s.deeper).2.depth
  bars : ∀ s : State, 0 < (outcome p (s.withBars (s.bars + 1))).2.bars

variable {α β : Type} {o : Options} {stop : Position} {s s' s'' : State} {e : SyntaxError}

theorem outcome_ok {p : Parser α} {a : α} (h : p s = .ok a s') : outcome p s = (.ok a, s') := by
  rw [outcome, h]

theorem outcome_error {p : Parser α} (h : p s = .error e s') : outcome p s = (.error e, s') := by
  rw [outcome, h]

theorem outcome_within (enter leave : State → State) (p : Parser Tree) (s : State) :
    outcome (within enter leave p) s =
      ((outcome p (enter s)).1, leave (outcome p (enter s)).2) := by
  simp only [outcome, within]
  cases p (enter s) <;> rfl

namespace State.Kept

theorem refl (s : State) : Kept s s := ⟨rfl, rfl, List.suffix_refl _⟩

theorem trans (h : Kept s s') (h' : Kept s' s'') : Kept s s'' :=
  ⟨h'.depth.trans h.depth, h'.bars.trans h.bars, h'.rest.trans h.rest⟩

end State.Kept

namespace Restores

variable {p q : Parser α} {body : Parser Tree}

theorem ok {a : α} (hp : Restores p) (h : p s = .ok a s') : State.Kept s s' := by
  have hs := hp s
  rwa [outcome_ok h] at hs

theorem pure (a : α) : Restores (pure a : Parser α) := State.Kept.refl

theorem fail (fault : SyntaxFault) (t : Token) : Restores (fail fault t : Parser α) :=
  State.Kept.refl

theorem peek : Restores (peek stop) := State.Kept.refl

theorem skip : Restores skip := fun s => ⟨rfl, rfl, s.rest.tail_suffix⟩

theorem continues (k : Kind) : Restores (continues k) := State.Kept.refl

theorem ite {c : Prop} [Decidable c] (hp : Restores p) (hq : Restores q) :
    Restores (if c then p else q) := by
  split
  · exact hp
  · exact hq

theorem bind {f : α → Parser β} (hp : Restores p) (hf : ∀ a, Restores (f a)) :
    Restores (p >>= f) := by
  intro s
  cases h : p s with
  | ok a s' =>
      have hb : outcome (p >>= f) s = outcome (f a) s' := by simp only [outcome, bind_apply, h]
      rw [hb]
      exact (hp.ok h).trans (hf a s')
  | error e s' =>
      have hb : (p >>= f) s = .error e s' := by simp only [bind_apply, h]
      have hs := hp s
      rw [outcome_error h] at hs
      rwa [outcome_error hb]

theorem bounded (t : Tree) : Restores (bounded o t) := ite (pure t) (fail _ _)

theorem close (opening : Token) (closing : Kind) : Restores (close o stop opening closing) :=
  bind peek fun _ => ite skip (ite (pure ()) (fail _ _))

theorem within {enter leave : State → State} (h : Restores body)
    (hw : ∀ s', State.Kept (enter s) s' → State.Kept s (leave s')) :
    State.Kept s (outcome (within enter leave body) s).2 := by
  rw [outcome_within]
  exact hw _ (h (enter s))

theorem nested (h : Restores body) (t : Token) : Restores (nested o t body) := by
  intro s
  by_cases hd : s.depth < o.maxDepth
  · have hn : outcome (Parser.nested o t body) s =
        outcome (Parser.within State.deeper State.shallower body) s := by
      rw [outcome, nested_apply, if_pos hd]
      rfl
    rw [hn]
    exact h.within fun s' hs => ⟨congrArg (· - 1) hs.depth, hs.bars, hs.rest⟩
  · rw [outcome, nested_apply, if_neg hd]
    exact .refl s

theorem insideBars (h : Restores body) : Restores (insideBars body) :=
  fun _ => h.within fun _ hs => ⟨hs.depth, congrArg (· - 1) hs.bars, hs.rest⟩

theorem outsideBars (h : Restores body) : Restores (outsideBars body) := by
  intro s
  have ho : outcome (Parser.outsideBars body) s =
      outcome (Parser.within (State.withBars 0) (State.withBars s.bars) body) s := rfl
  rw [ho]
  exact h.within fun _ hs => ⟨hs.depth, rfl, hs.rest⟩

theorem countsBack (h : Restores body) : CountsBack body where
  depth s := (h s.deeper).depth ▸ Nat.succ_pos s.depth
  bars s := (h (s.withBars (s.bars + 1))).bars ▸ Nat.succ_pos s.bars

variable {again : Rule → Parser Tree}

theorem productSign : Restores (productSign stop) :=
  bind peek fun _ => ite (bind skip fun _ => pure _) (bind (continues _) fun _ =>
    ite (pure _) (pure _))

theorem operand (h : ∀ r, Restores (again r)) (t : Token) : Restores (operand o stop again t) := by
  unfold Parser.operand
  split
  · exact bind skip fun _ => bind (outsideBars (h .expression)) fun a =>
      bind (close _ _) fun _ => pure a
  · exact bind skip fun _ => bind (insideBars (h .expression)) fun _ =>
      bind (close _ _) fun _ => bounded _
  · exact bind skip fun _ => bind (h .application) fun _ => bounded _
  · exact bind skip fun _ => bind (h .application) fun _ => bounded _
  · exact bind skip fun _ => pure _
  · exact bind skip fun _ => pure _
  · exact bind skip fun _ => pure _
  · exact ite (pure _) (fail _ _)
  · exact fail _ _

theorem rule (h : ∀ r, Restores (again r)) (r : Rule) : Restores (rule o stop again r) := by
  cases r with
  | expression => exact bind (h .term) fun t => h (.sum t)
  | sum left =>
      exact bind peek fun _ => ite (bind skip fun _ => bind (h .term) fun _ =>
        bind (bounded _) fun t => h (.sum t)) (pure left)
  | term => exact bind (h .power) fun t => h (.product t)
  | product left =>
      refine bind productSign fun op => ?_
      cases op with
      | some op => exact bind (h .power) fun _ => bind (bounded _) fun t => h (.product t)
      | none => exact pure left
  | power =>
      exact bind (h .application) fun base => bind peek fun op => ite
        (bind skip fun _ => bind (nested (h .power) op) fun _ => bounded _) (pure base)
  | application =>
      exact bind (h .factor) fun callee => bind peek fun next => bind (continues _) fun _ => ite
        (bind (nested (h .application) next) fun _ => bounded _) (pure callee)
  | factor => exact bind peek fun t => nested (operand h t) t

theorem runUpTo (n : Nat) (r : Rule) : Restores (runUpTo o stop n r) := by
  induction n generalizing r with
  | zero => exact fail _ _
  | succ n ih => exact rule ih r

theorem run (r : Rule) : Restores (run o stop r) := fun s => runUpTo (r.weight s + 1) r s

end Restores

section Context

variable {r : Rule} {d m n : Nat} {c : Context} {ts ts' : List Token} {t : Tree}

theorem Reads.at_opening (h : Reads o stop .factor d c ts t ts')
    (hk : (front stop ts).kind = .leftParen ∨ (front stop ts).kind = .bar) (c' : Context) :
    Reads o stop .factor d c' ts t ts' := by
  cases h with
  | parens ht hd inner closes => exact .parens ht hd inner closes
  | bars ht hd inner closes hh => exact .bars ht hd inner closes hh
  | sign ht => rcases ht with ht | ht <;> simp [ht] at hk
  | leaf ht => rcases ht with ht | ht | ht <;> simp [ht] at hk
  | missing _ h => simp [h] at hk

theorem Fails.at_opening (h : Fails o stop .factor d c ts e ts')
    (hk : (front stop ts).kind = .leftParen ∨ (front stop ts).kind = .bar) (c' : Context) :
    Fails o stop .factor d c' ts e ts' := by
  cases h with
  | factorDeep hd => exact .factorDeep hd
  | parensInner ht hd inner => exact .parensInner ht hd inner
  | parensOpen ht hd inner h hl => exact .parensOpen ht hd inner h hl
  | barsInner ht hd inner => exact .barsInner ht hd inner
  | barsOpen ht hd inner h hl => exact .barsOpen ht hd inner h hl
  | barsTall ht hd inner closes hh => exact .barsTall ht hd inner closes hh
  | signOperand ht | signTall ht => rcases ht with ht | ht <;> simp [ht] at hk
  | missing _ h => simp [h] at hk
  | unexpected _ hs => rcases hk with hk | hk <;> simp_all [Kind.startsOperand]

theorem Reads.effect_eq (h : Reads o stop r d c ts t ts') (hb : Context.ofBars m = c) :
    effect (Parser.run o stop r) ⟨ts, d, m⟩ = (.ok t, ts') := by
  rw [effect, outcome_ok (h.run hb)]

theorem Fails.effect_eq (h : Fails o stop r d c ts e ts') (hb : Context.ofBars m = c) :
    effect (Parser.run o stop r) ⟨ts, d, m⟩ = (.error e, ts') := by
  rw [effect, outcome_error (h.run hb)]

theorem ofBars_congr (h : m = 0 ↔ n = 0) : Context.ofBars m = Context.ofBars n := by
  cases m <;> cases n <;> simp_all [Context.ofBars]

theorem effect_run_congr (h : Context.ofBars m = Context.ofBars n) :
    effect (run o stop r) ⟨ts, d, m⟩ = effect (run o stop r) ⟨ts, d, n⟩ := by
  rcases settled o stop r d (.ofBars n) ts with ⟨t, ts', ht⟩ | ⟨e, ts', he⟩
  · rw [ht.effect_eq h, ht.effect_eq rfl]
  · rw [he.effect_eq h, he.effect_eq rfl]

theorem effect_factor_congr
    (hk : (front stop ts).kind = .leftParen ∨ (front stop ts).kind = .bar) :
    effect (run o stop .factor) ⟨ts, d, m⟩ = effect (run o stop .factor) ⟨ts, d, n⟩ := by
  rcases settled o stop .factor d (.ofBars n) ts with ⟨t, ts', ht⟩ | ⟨e, ts', he⟩
  · rw [(ht.at_opening hk (.ofBars m)).effect_eq rfl, ht.effect_eq rfl]
  · rw [(he.at_opening hk (.ofBars m)).effect_eq rfl, he.effect_eq rfl]

end Context

/-- Whether a rule succeeds or fails, depth and bars are what they were, and wherever one of them is
counted down it was counted up. How many bars are open does not matter unless it is none, and in
front of an opening delimiter not even then. -/
theorem bars_are_restored (o : Options) (stop : Position) (r : Rule) (s : State) :
    ((outcome (run o stop r) s).2.depth = s.depth ∧ (outcome (run o stop r) s).2.bars = s.bars) ∧
      (CountsBack (run o stop r) ∧ ∀ t, CountsBack (operand o stop (run o stop) t)) ∧
      (∀ n, (n = 0 ↔ s.bars = 0) →
        effect (run o stop r) (s.withBars n) = effect (run o stop r) s) ∧
      ((s.next stop).kind = .leftParen ∨ (s.next stop).kind = .bar →
        ∀ n, effect (run o stop .factor) (s.withBars n) = effect (run o stop .factor) s) := by
  have hs : State.Kept s (outcome (run o stop r) s).2 := Restores.run r s
  refine ⟨⟨hs.depth, hs.bars⟩, ⟨(Restores.run r).countsBack, fun t => ?_⟩, fun n hn => ?_, ?_⟩
  · exact (Restores.operand Restores.run t).countsBack
  · exact effect_run_congr (ofBars_congr hn)
  · intro hk n
    exact effect_factor_congr hk

theorem bar_closes_whatever_is_open :
    effect (run .default .start .term) ⟨(Scan.ofString "2|3|").tokens, 0, 1⟩ =
        (.ok (.leaf ⟨.integer, "2", 1, ⟨0, 1, 1⟩⟩), (Scan.ofString "2|3|").tokens.tail) ∧
      effect (run .default .start .term) ⟨(Scan.ofString "2|3|").tokens, 0, 5⟩ =
        (.ok (.leaf ⟨.integer, "2", 1, ⟨0, 1, 1⟩⟩), (Scan.ofString "2|3|").tokens.tail) ∧
      effect (run .default .start .factor) ⟨(Scan.ofString "|3|").tokens, 0, 5⟩ =
        effect (run .default .start .factor) ⟨(Scan.ofString "|3|").tokens, 0, 0⟩ := by
  have h : effect (run .default .start .term) ⟨(Scan.ofString "2|3|").tokens, 0, 1⟩ =
      (.ok (.leaf ⟨.integer, "2", 1, ⟨0, 1, 1⟩⟩), (Scan.ofString "2|3|").tokens.tail) := by
    rfl
  obtain ⟨-, -, hn, -⟩ := bars_are_restored .default .start .term
    ⟨(Scan.ofString "2|3|").tokens, 0, 1⟩
  obtain ⟨-, -, -, hk⟩ := bars_are_restored .default .start .factor
    ⟨(Scan.ofString "|3|").tokens, 0, 0⟩
  exact ⟨h, (hn 5 (by decide)).trans h, hk (.inr (by decide)) 5⟩

end Reckon.Parser
