import Reckon.Parser

namespace Reckon.Parser

variable {o : Options} {stop : Position}

def Rule.isChain : Rule → Bool
  | .sum _ | .product _ => true
  | _ => false

/-- How far a success of a rule moves in the tokens: nowhere at the end, and elsewhere past one or
more, except that a chain may be over. -/
def Moves (stop : Position) (r : Rule) (ts ts' : List Token) : Prop :=
  if (front stop ts).kind = .endOfInput then ts' = ts
  else if r.isChain then ts'.length ≤ ts.length
  else ts'.length < ts.length

/-- Two steps that do the same from `s`, with `post` where they succeed. -/
structure Alike {α : Type} (s : State) (post : α → State → Prop) (p p' : Parser α) : Prop where
  eq : p s = p' s
  post : ∀ a s', p' s = .ok a s' → post a s'

namespace Alike

variable {α β : Type} {s : State} {P Q : α → State → Prop} {R : β → State → Prop}

theorem bind {p p' : Parser α} {f f' : α → Parser β} (h : Alike s P p p')
    (hf : ∀ a s', P a s' → Alike s' R (f a) (f' a)) : Alike s R (p >>= f) (p' >>= f') := by
  constructor
  · simp only [bind_apply, h.eq]
    cases hp : p' s with
    | ok a s' => exact (hf a s' (h.post a s' hp)).eq
    | error e s' => rfl
  · intro b s'' hb
    simp only [bind_apply] at hb
    cases hp : p' s with
    | ok a s' => exact (hf a s' (h.post a s' hp)).post b s'' (by simpa [hp] using hb)
    | error e s' => simp [hp] at hb

theorem mono {p p' : Parser α} (h : Alike s P p p') (hPQ : ∀ a s', P a s' → Q a s') :
    Alike s Q p p' := ⟨h.eq, fun a s' hp => hPQ a s' (h.post a s' hp)⟩

theorem refl {p : Parser α} (h : ∀ a s', p s = .ok a s' → P a s') : Alike s P p p := ⟨rfl, h⟩

theorem pure {a : α} (h : P a s) : Alike s P (pure a) (pure a) :=
  refl fun _ _ hp => by simp only [pure_apply] at hp; cases hp; exact h

theorem fail (fault : SyntaxFault) (t : Token) :
    Alike s P (Parser.fail fault t) (Parser.fail fault t) :=
  refl fun _ _ hp => by simp [fail_apply] at hp

theorem ite {c : Prop} [Decidable c] {p p' q q' : Parser α} (hp : c → Alike s P p p')
    (hq : ¬c → Alike s P q q') : Alike s P (if c then p else q) (if c then p' else q') := by
  split <;> simp_all

theorem peek : Alike s (fun t s' => t = s.next stop ∧ s' = s) (peek stop) (peek stop) :=
  refl fun _ _ hp => by simp only [peek_apply] at hp; cases hp; exact ⟨rfl, rfl⟩

theorem skip : Alike s (fun _ s' => s'.rest = s.rest.tail) skip skip :=
  refl fun _ _ hp => by simp only [skip_apply] at hp; cases hp; rfl

theorem continues (k : Kind) :
    Alike s (fun b s' => b = s.continues k ∧ s' = s) (continues k) (continues k) :=
  refl fun _ _ hp => by simp only [continues_apply] at hp; cases hp; exact ⟨rfl, rfl⟩

theorem bounded (t : Tree) : Alike s (fun _ s' => s' = s) (bounded o t) (bounded o t) :=
  refl fun _ _ hp => by
    simp only [bounded_apply] at hp
    split at hp <;> cases hp
    rfl

theorem close (t : Token) (k : Kind) :
    Alike s (fun _ s' => s'.rest.length ≤ s.rest.length) (close o stop t k)
      (close o stop t k) :=
  refl fun _ _ hp => by
    simp only [close_apply] at hp
    split at hp
    · cases hp; simp
    · split at hp <;> cases hp
      exact Nat.le_refl _

variable {p p' : Parser Tree} {Q : List Token → Prop}

theorem within {enter leave : State → State} (hl : ∀ s, (leave s).rest = s.rest)
    (h : Alike (enter s) (fun _ s' => Q s'.rest) p p') :
    Alike s (fun _ s' => Q s'.rest) (within enter leave p) (within enter leave p') := by
  constructor
  · simp only [Parser.within, h.eq]
  · intro t s' ht
    simp only [Parser.within] at ht
    cases hp : p' (enter s) with
    | ok t' s'' => rw [hp] at ht; cases ht; exact hl s'' ▸ h.post _ _ hp
    | error e s'' => simp [hp] at ht

theorem nested (t : Token) (h : ∀ s', s'.rest = s.rest → Alike s' (fun _ s'' => Q s''.rest) p p') :
    Alike s (fun _ s' => Q s'.rest) (nested o t p) (nested o t p') := by
  have hw : Alike s (fun _ s' => Q s'.rest) (Parser.within State.deeper State.shallower p)
      (Parser.within State.deeper State.shallower p') := within (fun _ => rfl) (h _ rfl)
  constructor
  · simp only [nested_apply, hw.eq]
  · intro a s' ha
    simp only [nested_apply] at ha
    split at ha
    · exact hw.post a s' ha
    · cases ha

theorem insideBars (h : ∀ s', s'.rest = s.rest → Alike s' (fun _ s'' => Q s''.rest) p p') :
    Alike s (fun _ s' => Q s'.rest) (insideBars p) (insideBars p') :=
  within (fun _ => rfl) (h _ rfl)

theorem outsideBars (h : ∀ s', s'.rest = s.rest → Alike s' (fun _ s'' => Q s''.rest) p p') :
    Alike s (fun _ s' => Q s'.rest) (outsideBars p) (outsideBars p') := by
  have hw : Alike s (fun _ s' => Q s'.rest)
      (Parser.within (State.withBars 0) (State.withBars s.bars) p)
      (Parser.within (State.withBars 0) (State.withBars s.bars) p') :=
    within (fun _ => rfl) (h _ rfl)
  exact ⟨hw.eq, hw.post⟩

end Alike

namespace Moves

variable {r : Rule} {ts ts' : List Token}

theorem length_le (h : Moves stop r ts ts') : ts'.length ≤ ts.length := by
  unfold Moves at h
  split at h
  · exact h ▸ Nat.le_refl _
  · split at h <;> omega

theorem length_lt (h : Moves stop r ts ts') (hr : r.isChain = false)
    (hk : (front stop ts).kind ≠ .endOfInput) : ts'.length < ts.length := by
  simpa only [Moves, hk, hr, if_false, Bool.false_eq_true] using h

theorem stays (h : Moves stop r ts ts') (hk : (front stop ts).kind = .endOfInput) :
    ts' = ts := by simpa only [Moves, hk, if_true] using h

theorem of_length_lt (h : ts'.length < ts.length)
    (hk : (front stop ts).kind ≠ .endOfInput) : Moves stop r ts ts' := by
  unfold Moves
  split
  · contradiction
  · split <;> omega

theorem of_stays (h : ts' = ts) (hr : r.isChain ∨ (front stop ts).kind = .endOfInput) :
    Moves stop r ts ts' := by
  unfold Moves
  split
  · exact h
  · simp_all

end Moves

theorem length_tail_lt {ts : List Token} (hk : (front stop ts).kind ≠ .endOfInput) :
    ts.tail.length < ts.length := by
  cases ts with
  | nil => simp [front, Token.finish] at hk
  | cons => simp

def AlikeBelow (stop : Position) (w : Nat) (again again' : Rule → Parser Tree) : Prop :=
  ∀ r s, r.weight s < w →
    Alike s (fun _ s' => Moves stop r s.rest s'.rest) (again r) (again' r)

variable {again again' : Rule → Parser Tree} {s : State}

theorem alike_expression (h : AlikeBelow stop (Rule.expression.weight s) again again') :
    Alike s (fun _ s' => Moves stop .expression s.rest s'.rest) (rule o stop again .expression)
      (rule o stop again' .expression) := by
  refine .bind (h .term s (by simp only [Rule.weight, Rule.rank]; omega)) fun t s₁ h₁ => ?_
  have := h₁.length_le
  refine (h (.sum t) s₁ (by simp only [Rule.weight, Rule.rank]; omega)).mono fun _ s₂ h₂ => ?_
  by_cases hk : (front stop s.rest).kind = .endOfInput
  · have := h₁.stays hk
    rw [this] at h₂
    exact .of_stays (h₂.stays hk) (.inr hk)
  · have := h₁.length_lt rfl hk
    exact .of_length_lt (Nat.lt_of_le_of_lt h₂.length_le this) hk

theorem alike_sum (left : Tree) (h : AlikeBelow stop ((Rule.sum left).weight s) again again') :
    Alike s (fun _ s' => Moves stop (.sum left) s.rest s'.rest) (rule o stop again (.sum left))
      (rule o stop again' (.sum left)) := by
  refine .bind .peek ?_
  rintro _ s ⟨rfl, rfl⟩
  refine .ite (fun hk => ?_) fun _ => .pure (.of_stays rfl (.inl rfl))
  have hk : (s.next stop).kind ≠ .endOfInput := by rcases hk with hk | hk <;> simp [hk]
  have hl := length_tail_lt hk
  refine .bind .skip fun _ s₁ h₁ => .bind (h .term s₁ ?_) fun t s₂ h₂ => .bind (.bounded _) ?_
  · simp only [Rule.weight, Rule.rank, h₁]; omega
  · rintro t₃ _ rfl
    have h₂ := h₂.length_le
    rw [h₁] at h₂
    refine (h (.sum t₃) _ ?_).mono fun _ _ h₃ => .of_length_lt ?_ hk
    · simp only [Rule.weight, Rule.rank]; omega
    · exact Nat.lt_of_le_of_lt h₃.length_le (by omega)

theorem alike_term (h : AlikeBelow stop (Rule.term.weight s) again again') :
    Alike s (fun _ s' => Moves stop .term s.rest s'.rest) (rule o stop again .term)
      (rule o stop again' .term) := by
  refine .bind (h .power s (by simp only [Rule.weight, Rule.rank]; omega)) fun t s₁ h₁ => ?_
  have := h₁.length_le
  refine (h (.product t) s₁ (by simp only [Rule.weight, Rule.rank]; omega)).mono fun _ s₂ h₂ => ?_
  by_cases hk : (front stop s.rest).kind = .endOfInput
  · have := h₁.stays hk
    rw [this] at h₂
    exact .of_stays (h₂.stays hk) (.inr hk)
  · have := h₁.length_lt rfl hk
    exact .of_length_lt (Nat.lt_of_le_of_lt h₂.length_le this) hk

theorem alike_productSign : Alike s
    (fun op s' => match op with
      | some _ => (s.next stop).kind ≠ .endOfInput ∧ s'.rest.length ≤ s.rest.length ∧
          (s'.rest = s.rest ∨ s'.rest.length < s.rest.length)
      | none => s' = s)
    (productSign stop) (productSign stop) := by
  refine .bind .peek ?_
  rintro _ s ⟨rfl, rfl⟩
  refine .ite (fun hk => ?_) fun _ => .bind (.continues _) ?_
  · have hk : (s.next stop).kind ≠ .endOfInput := by rcases hk with hk | hk <;> simp [hk]
    have hl := length_tail_lt hk
    exact .bind .skip fun _ s₁ h₁ => .pure ⟨hk, by rw [h₁]; omega, by rw [h₁]; omega⟩
  · rintro _ s ⟨rfl, rfl⟩
    refine .ite (fun hk => .pure ⟨fun he => ?_, Nat.le_refl _, .inl rfl⟩) fun _ => .pure rfl
    simp [he, State.continues, Kind.startsOperand] at hk

theorem alike_product (left : Tree)
    (h : AlikeBelow stop ((Rule.product left).weight s) again again') :
    Alike s (fun _ s' => Moves stop (.product left) s.rest s'.rest)
      (rule o stop again (.product left)) (rule o stop again' (.product left)) := by
  refine .bind alike_productSign ?_
  rintro (_ | op) s₁ h₁
  · exact .pure (.of_stays (by rw [h₁]) (.inl rfl))
  · obtain ⟨hk, hle, hmoves⟩ := h₁
    refine .bind (h .power s₁ ?_) fun t s₂ h₂ => .bind (.bounded _) ?_
    · simp only [Rule.weight, Rule.rank]; omega
    · rintro t₃ s₂ rfl
      have hlt : s₂.rest.length < s.rest.length := by
        rcases hmoves with hs | hs
        · rw [hs] at h₂
          exact h₂.length_lt rfl hk
        · exact Nat.lt_of_le_of_lt h₂.length_le hs
      refine (h (.product t₃) _ ?_).mono fun _ _ h₃ => .of_length_lt ?_ hk
      · simp only [Rule.weight, Rule.rank]; omega
      · exact Nat.lt_of_le_of_lt h₃.length_le (by omega)

theorem alike_power (h : AlikeBelow stop (Rule.power.weight s) again again') :
    Alike s (fun _ s' => Moves stop .power s.rest s'.rest) (rule o stop again .power)
      (rule o stop again' .power) := by
  refine .bind (h .application s (by simp only [Rule.weight, Rule.rank]; omega)) fun t s₁ h₁ =>
    .bind .peek ?_
  rintro _ s₁ ⟨rfl, rfl⟩
  refine .ite (fun hk => ?_) fun _ => .pure h₁
  have hk : (s₁.next stop).kind ≠ .endOfInput := by simp [hk]
  have hl := length_tail_lt hk
  have hle := h₁.length_le
  have hs : (front stop s.rest).kind ≠ .endOfInput := fun he => hk (by
    rw [State.next, h₁.stays he, he])
  refine .bind .skip fun _ s₂ h₂ => .bind (.nested (Q := fun ts => ts.length < s.rest.length) _
    fun s₃ h₃ => (h .power s₃ ?_).mono fun _ _ h₄ => ?_) fun t s₅ h₅ => (Alike.bounded _).mono ?_
  · simp only [Rule.weight, Rule.rank, h₃, h₂]; omega
  · have := h₄.length_le
    rw [h₃, h₂] at this
    omega
  · rintro _ _ rfl
    exact .of_length_lt h₅ hs

theorem alike_application (h : AlikeBelow stop (Rule.application.weight s) again again') :
    Alike s (fun _ s' => Moves stop .application s.rest s'.rest) (rule o stop again .application)
      (rule o stop again' .application) := by
  refine .bind (h .factor s (by simp only [Rule.weight, Rule.rank]; omega)) fun t s₁ h₁ =>
    .bind .peek ?_
  rintro _ s₁ ⟨rfl, rfl⟩
  refine .bind (.continues _) ?_
  rintro _ s₁ ⟨rfl, rfl⟩
  refine .ite (fun hk => ?_) fun _ => .pure h₁
  have hk : (s₁.next stop).kind ≠ .endOfInput := fun he => by
    simp [he, State.continues, Kind.startsOperand] at hk
  have hs : (front stop s.rest).kind ≠ .endOfInput := fun he => hk (by
    rw [State.next, h₁.stays he, he])
  have hlt := h₁.length_lt rfl hs
  refine .bind (.nested (Q := fun ts => ts.length < s.rest.length) _
    fun s₃ h₃ => (h .application s₃ ?_).mono fun _ _ h₄ => ?_) fun t s₅ h₅ =>
      (Alike.bounded _).mono ?_
  · simp only [Rule.weight, Rule.rank, h₃]; omega
  · have := h₄.length_le
    rw [h₃] at this
    omega
  · rintro _ _ rfl
    exact .of_length_lt h₅ hs

theorem alike_operand (h : AlikeBelow stop (Rule.factor.weight s) again again') (s₁ : State)
    (h₁ : s₁.rest = s.rest) :
    Alike s₁ (fun _ s' => Moves stop .factor s.rest s'.rest)
      (operand o stop again (s.next stop)) (operand o stop again' (s.next stop)) := by
  have hr : ∀ r, (s.next stop).kind ≠ .endOfInput → ∀ s₂ : State, s₂.rest.length < s.rest.length →
      Alike s₂ (fun _ s' => s'.rest.length < s.rest.length) (again r) (again' r) :=
    fun r hk s₂ h₂ => (h r s₂ (by cases r <;> simp only [Rule.weight, Rule.rank] <;> omega)).mono
      fun _ _ h₃ => Nat.lt_of_le_of_lt h₃.length_le h₂
  have hskip : (s.next stop).kind ≠ .endOfInput →
      Alike s₁ (fun _ s' => s'.rest.length < s.rest.length) skip skip := fun hk =>
    Alike.skip.mono fun _ _ h₂ => by rw [h₂, h₁]; exact length_tail_lt hk
  have hbounded : (s.next stop).kind ≠ .endOfInput → ∀ t s₂, s₂.rest.length < s.rest.length →
      Alike s₂ (fun _ s' => Moves stop .factor s.rest s'.rest) (bounded o t) (bounded o t) :=
    fun hk t s₂ h₂ => (Alike.bounded t).mono fun _ _ h₃ => .of_length_lt (h₃ ▸ h₂) hk
  simp only [operand]
  split <;> rename_i hk
  · have hk : (s.next stop).kind ≠ .endOfInput := by simp [hk]
    exact .bind (hskip hk) fun _ s₂ h₂ =>
      .bind (.outsideBars (Q := fun ts => ts.length < s.rest.length)
        fun s₃ h₃ => hr _ hk s₃ (h₃ ▸ h₂)) fun _ s₄ h₄ =>
      .bind (.close _ _) fun _ s₅ h₅ => .pure (.of_length_lt (Nat.lt_of_le_of_lt h₅ h₄) hk)
  · have hk : (s.next stop).kind ≠ .endOfInput := by simp [hk]
    exact .bind (hskip hk) fun _ s₂ h₂ =>
      .bind (.insideBars (Q := fun ts => ts.length < s.rest.length)
        fun s₃ h₃ => hr _ hk s₃ (h₃ ▸ h₂)) fun _ s₄ h₄ =>
      .bind (.close _ _) fun _ s₅ h₅ => hbounded hk _ _ (Nat.lt_of_le_of_lt h₅ h₄)
  · have hk : (s.next stop).kind ≠ .endOfInput := by simp [hk]
    exact .bind (hskip hk) fun _ s₂ h₂ => .bind (hr _ hk s₂ h₂) fun _ s₃ h₃ => hbounded hk _ _ h₃
  · have hk : (s.next stop).kind ≠ .endOfInput := by simp [hk]
    exact .bind (hskip hk) fun _ s₂ h₂ => .bind (hr _ hk s₂ h₂) fun _ s₃ h₃ => hbounded hk _ _ h₃
  · have hk : (s.next stop).kind ≠ .endOfInput := by simp [hk]
    exact .bind (hskip hk) fun _ s₂ h₂ => .pure (.of_length_lt h₂ hk)
  · have hk : (s.next stop).kind ≠ .endOfInput := by simp [hk]
    exact .bind (hskip hk) fun _ s₂ h₂ => .pure (.of_length_lt h₂ hk)
  · have hk : (s.next stop).kind ≠ .endOfInput := by simp [hk]
    exact .bind (hskip hk) fun _ s₂ h₂ => .pure (.of_length_lt h₂ hk)
  · exact .ite (fun _ => .pure (.of_stays h₁ (.inr hk))) fun _ => .fail _ _
  · exact .fail _ _

theorem alike_factor (h : AlikeBelow stop (Rule.factor.weight s) again again') :
    Alike s (fun _ s' => Moves stop .factor s.rest s'.rest) (rule o stop again .factor)
      (rule o stop again' .factor) := by
  refine .bind .peek ?_
  rintro _ s ⟨rfl, rfl⟩
  exact .nested (Q := fun ts => Moves stop .factor s.rest ts) _ fun s₁ h₁ => alike_operand h s₁ h₁

theorem alike_rule (r : Rule) (h : AlikeBelow stop (r.weight s) again again') :
    Alike s (fun _ s' => Moves stop r s.rest s'.rest) (rule o stop again r)
      (rule o stop again' r) := by
  cases r with
  | expression => exact alike_expression h
  | sum left => exact alike_sum left h
  | term => exact alike_term h
  | product left => exact alike_product left h
  | power => exact alike_power h
  | application => exact alike_application h
  | factor => exact alike_factor h

theorem alike_runUpTo (n m w : Nat) (hn : w ≤ n) (hm : w ≤ m) :
    AlikeBelow stop w (runUpTo o stop n) (runUpTo o stop m) := by
  induction w generalizing n m with
  | zero => intro r s h; omega
  | succ w ih =>
    intro r s h
    obtain ⟨n, rfl⟩ : ∃ k, n = k + 1 := ⟨n - 1, by omega⟩
    obtain ⟨m, rfl⟩ : ∃ k, m = k + 1 := ⟨m - 1, by omega⟩
    exact alike_rule r fun r' s' h' => ih n m (by omega) (by omega) r' s' (by omega)

theorem run_eq_runUpTo {n : Nat} {r : Rule} (h : r.weight s < n) :
    run o stop r s = runUpTo o stop n r s :=
  (alike_runUpTo _ n (r.weight s + 1) (Nat.le_refl _) h r s (Nat.lt_succ_self _)).eq

theorem run_eq (r : Rule) : run o stop r = rule o stop (run o stop) r := by
  funext s
  suffices h : AlikeBelow stop (r.weight s) (runUpTo o stop (r.weight s)) (run o stop) from
    (alike_rule r h).eq
  intro r' s' h
  refine ⟨(run_eq_runUpTo h).symm, fun t s'' ht => ?_⟩
  exact (alike_runUpTo (r'.weight s' + 1) _ _ (Nat.le_refl _) (Nat.le_refl _) r' s'
    (Nat.lt_succ_self _)).post t s'' ht

theorem moves_of_run {r : Rule} {t : Tree} {s' : State} (h : run o stop r s = .ok t s') :
    Moves stop r s.rest s'.rest :=
  (alike_runUpTo (r.weight s + 1) _ _ (Nat.le_refl _) (Nat.le_refl _) r s
    (Nat.lt_succ_self _)).post t s' h

end Reckon.Parser
