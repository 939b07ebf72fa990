import Reckon.Proofs.Reading

namespace Reckon.Parser

variable {o : Options} {stop : Position} {r : Rule} {d b : Nat} {c : Context}
  {ts ts' ts₀ ts₁ : List Token} {t : Tree} {e : SyntaxError}

theorem Signed.apply {op : Token} (h : Signed c ts op ts₀) (hb : Context.ofBars b = c) :
    productSign stop ⟨ts, d, b⟩ = .ok (some op) ⟨ts₀, d, b⟩ := by
  cases h with
  | written h =>
      simp only [productSign, bind_apply, peek_apply, State.next, front_cons, h, if_true,
        skip_apply, pure_apply, List.tail_cons]
  | @adjacent next ts h =>
      have hn : ¬(next.kind = .times ∨ next.kind = .divide) := by
        rintro (hk | hk) <;> cases c <;> simp [hk, Context.joins, Kind.startsOperand] at h
      simp only [productSign, bind_apply, peek_apply, State.next, front_cons, hn, if_false,
        if_true, continues_apply, continues_eq_joins, hb, h, pure_apply, between]

theorem productSign_eq_none (h : ¬((front stop ts).kind = .times ∨ (front stop ts).kind = .divide))
    (hj : c.joins (front stop ts).kind = false) (hb : Context.ofBars b = c) :
    productSign stop ⟨ts, d, b⟩ = .ok none ⟨ts, d, b⟩ := by
  simp only [productSign, bind_apply, peek_apply, State.next, h, if_false, continues_apply,
    continues_eq_joins, hb, hj, pure_apply, Bool.false_eq_true]

theorem Closes.apply {k : Kind} {t? : Option Token} (h : Closes o stop k ts t? ts₁)
    (opening : Token) (d b : Nat) : close o stop opening k ⟨ts, d, b⟩ = .ok () ⟨ts₁, d, b⟩ := by
  cases h with
  | written h => simp [close_apply, State.next, h]
  | assumed hl h => simp [close_apply, State.next, h, hl]

theorem nested_ok {at_ : Token} {p : Parser Tree} (hd : d < o.maxDepth)
    (h : p ⟨ts, d + 1, b⟩ = .ok t ⟨ts', d + 1, b⟩) :
    nested o at_ p ⟨ts, d, b⟩ = .ok t ⟨ts', d, b⟩ := by
  simp only [nested_apply, hd, if_true, within, State.deeper, h, State.shallower,
    Nat.add_sub_cancel]

theorem nested_error {at_ : Token} {p : Parser Tree} (hd : d < o.maxDepth)
    (h : p ⟨ts, d + 1, b⟩ = .error e ⟨ts', d + 1, b⟩) :
    nested o at_ p ⟨ts, d, b⟩ = .error e ⟨ts', d, b⟩ := by
  simp only [nested_apply, hd, if_true, within, State.deeper, h, State.shallower,
    Nat.add_sub_cancel]

theorem nested_deep {at_ : Token} {p : Parser Tree} (hd : o.maxDepth ≤ d) :
    nested o at_ p ⟨ts, d, b⟩ = .error (tooDeep o at_) ⟨ts, d, b⟩ := by
  simp only [nested_apply, Nat.not_lt.2 hd, if_false, tooDeep]

theorem run_factor_ok (hd : d < o.maxDepth)
    (h : operand o stop (run o stop) (front stop ts) ⟨ts, d + 1, b⟩ = .ok t ⟨ts', d + 1, b⟩) :
    run o stop .factor ⟨ts, d, b⟩ = .ok t ⟨ts', d, b⟩ := by
  rw [run_eq]
  exact nested_ok hd h

theorem run_factor_error (hd : d < o.maxDepth)
    (h : operand o stop (run o stop) (front stop ts) ⟨ts, d + 1, b⟩ = .error e ⟨ts', d + 1, b⟩) :
    run o stop .factor ⟨ts, d, b⟩ = .error e ⟨ts', d, b⟩ := by
  rw [run_eq]
  exact nested_error hd h

theorem bounded_ok {s : State} (h : t.height ≤ o.maxDepth) : bounded o t s = .ok t s := by
  rw [bounded_apply, if_pos h]

theorem bounded_tall {s : State} (h : o.maxDepth < t.height) :
    bounded o t s = .error (tooDeep o t.token) s := by
  rw [bounded_apply, if_neg (Nat.not_le.2 h)]
  rfl

theorem Reads.run (h : Reads o stop r d c ts t ts') (hb : Context.ofBars b = c) :
    run o stop r ⟨ts, d, b⟩ = .ok t ⟨ts', d, b⟩ := by
  induction h generalizing b with
  | expression _ _ ih ih' | term _ _ ih ih' =>
      rw [run_eq]
      simp only [rule, bind_apply, ih hb, ih' hb]
  | sumEnd h =>
      rw [run_eq]
      simp only [rule, bind_apply, peek_apply, State.next, ite_apply, h, if_false, pure_apply]
  | sumStep hop _ hh _ ih ih' =>
      rw [run_eq]
      simp only [rule, bind_apply, peek_apply, State.next, ite_apply, front_cons, hop, if_true,
        skip_apply, List.tail_cons, ih hb, bounded_ok hh, ih' hb]
  | productEnd h hj =>
      rw [run_eq]
      simp only [rule, bind_apply, productSign_eq_none h hj hb, pure_apply]
  | productStep sign _ hh _ ih ih' =>
      rw [run_eq]
      simp only [rule, bind_apply, sign.apply hb, ih hb, bounded_ok hh, ih' hb]
  | power _ h ih =>
      rw [run_eq]
      simp only [rule, bind_apply, ih hb, peek_apply, State.next, ite_apply, h, if_false,
        pure_apply]
  | raised _ hop hd _ hh ih ih' =>
      rw [run_eq]
      simp only [rule, bind_apply, ih hb, peek_apply, State.next, front_cons, ite_apply, hop,
        if_true, skip_apply, List.tail_cons, nested_ok hd (ih' hb), bounded_ok hh]
  | application _ h ih =>
      rw [run_eq]
      simp only [rule, bind_apply, ih hb, peek_apply, State.next, ite_apply, continues_apply,
        continues_eq_joins, hb, h, if_false, pure_apply, Bool.false_eq_true]
  | applied _ ht hj hd _ hh ih ih' =>
      rw [run_eq]
      simp only [rule, bind_apply, ih hb, peek_apply, State.next, front_cons, ite_apply,
        continues_apply, continues_eq_joins, hb, ht, hj, Bool.and_self, if_true,
        nested_ok hd (ih' hb), bounded_ok hh]
  | parens ht hd _ closes ih =>
      refine run_factor_ok hd ?_
      simp only [front_cons, operand, ht, bind_apply, skip_apply, List.tail_cons,
        outsideBars_apply, within, State.withBars, ih (b := 0) rfl, closes.apply, pure_apply]
  | bars ht hd _ closes hh ih =>
      refine run_factor_ok hd ?_
      simp only [front_cons, operand, ht, bind_apply, skip_apply, List.tail_cons, insideBars,
        within, State.withBars, ih (b := _ + 1) rfl, Nat.add_sub_cancel, closes.apply,
        bounded_ok hh]
  | sign ht hd _ hh ih =>
      refine run_factor_ok hd ?_
      rcases ht with ht | ht <;>
        simp only [front_cons, operand, ht, bind_apply, skip_apply, List.tail_cons, ih hb,
          bounded_ok hh]
  | leaf ht hd =>
      refine run_factor_ok hd ?_
      rcases ht with ht | ht | ht <;>
        simp only [front_cons, operand, ht, bind_apply, skip_apply, List.tail_cons, pure_apply]
  | missing hl h hd =>
      refine run_factor_ok hd ?_
      simp only [operand, h, hl, if_true, pure_apply]

theorem Fails.run (h : Fails o stop r d c ts e ts') (hb : Context.ofBars b = c) :
    run o stop r ⟨ts, d, b⟩ = .error e ⟨ts', d, b⟩ := by
  induction h generalizing b with
  | expressionFirst _ ih | termFirst _ ih | powerBase _ ih | callee _ ih =>
      rw [run_eq]
      simp only [rule, bind_apply, ih hb]
  | expressionMore first _ ih | termMore first _ ih =>
      rw [run_eq]
      simp only [rule, bind_apply, first.run hb, ih hb]
  | sumRight hop _ ih =>
      rw [run_eq]
      simp only [rule, bind_apply, peek_apply, State.next, ite_apply, front_cons, hop, if_true,
        skip_apply, List.tail_cons, ih hb]
  | sumTall hop right hh =>
      rw [run_eq]
      simp only [rule, bind_apply, peek_apply, State.next, ite_apply, front_cons, hop, if_true,
        skip_apply, List.tail_cons, right.run hb, bounded_tall hh, Tree.token]
  | sumMore hop right hh _ ih =>
      rw [run_eq]
      simp only [rule, bind_apply, peek_apply, State.next, ite_apply, front_cons, hop, if_true,
        skip_apply, List.tail_cons, right.run hb, bounded_ok hh, ih hb]
  | productRight sign _ ih =>
      rw [run_eq]
      simp only [rule, bind_apply, sign.apply hb, ih hb]
  | productTall sign right hh =>
      rw [run_eq]
      simp only [rule, bind_apply, sign.apply hb, right.run hb, bounded_tall hh, Tree.token]
  | productMore sign right hh _ ih =>
      rw [run_eq]
      simp only [rule, bind_apply, sign.apply hb, right.run hb, bounded_ok hh, ih hb]
  | exponentDeep base hop hd =>
      rw [run_eq]
      simp only [rule, bind_apply, base.run hb, peek_apply, State.next, front_cons, ite_apply,
        hop, if_true, skip_apply, List.tail_cons, nested_deep hd]
  | exponent base hop hd _ ih =>
      rw [run_eq]
      simp only [rule, bind_apply, base.run hb, peek_apply, State.next, front_cons, ite_apply,
        hop, if_true, skip_apply, List.tail_cons, nested_error hd (ih hb)]
  | powerTall base hop hd exponent hh =>
      rw [run_eq]
      simp only [rule, bind_apply, base.run hb, peek_apply, State.next, front_cons, ite_apply,
        hop, if_true, skip_apply, List.tail_cons, nested_ok hd (exponent.run hb),
        bounded_tall hh, Tree.token]
  | argumentDeep callee ht hj hd =>
      rw [run_eq]
      simp only [rule, bind_apply, callee.run hb, peek_apply, State.next, front_cons, ite_apply,
        continues_apply, continues_eq_joins, hb, ht, hj, Bool.and_self, if_true, nested_deep hd]
  | argument callee ht hj hd _ ih =>
      rw [run_eq]
      simp only [rule, bind_apply, callee.run hb, peek_apply, State.next, front_cons, ite_apply,
        continues_apply, continues_eq_joins, hb, ht, hj, Bool.and_self, if_true,
        nested_error hd (ih hb)]
  | applicationTall callee ht hj hd argument hh =>
      rw [run_eq]
      simp only [rule, bind_apply, callee.run hb, peek_apply, State.next, front_cons, ite_apply,
        continues_apply, continues_eq_joins, hb, ht, hj, Bool.and_self, if_true,
        nested_ok hd (argument.run hb), bounded_tall hh, Tree.token]
  | factorDeep hd =>
      rw [run_eq]
      exact nested_deep hd
  | parensInner ht hd _ ih =>
      refine run_factor_error hd ?_
      simp only [front_cons, operand, ht, bind_apply, skip_apply, List.tail_cons,
        outsideBars_apply, within, State.withBars, ih (b := 0) rfl]
  | parensOpen ht hd inner h hl =>
      refine run_factor_error hd ?_
      simp only [front_cons, operand, ht, bind_apply, skip_apply, List.tail_cons,
        outsideBars_apply, within, State.withBars, inner.run (b := 0) rfl, close_apply,
        State.next, h, hl, if_false, Bool.false_eq_true, reduceCtorEq]
  | barsInner ht hd _ ih =>
      refine run_factor_error hd ?_
      simp only [front_cons, operand, ht, bind_apply, skip_apply, List.tail_cons, insideBars,
        within, State.withBars, ih (b := _ + 1) rfl, Nat.add_sub_cancel]
  | barsOpen ht hd inner h hl =>
      refine run_factor_error hd ?_
      simp only [front_cons, operand, ht, bind_apply, skip_apply, List.tail_cons, insideBars,
        within, State.withBars, inner.run (b := _ + 1) rfl, Nat.add_sub_cancel, close_apply,
        State.next, h, hl, if_false, if_true, Bool.false_eq_true]
  | barsTall ht hd inner closes hh =>
      refine run_factor_error hd ?_
      simp only [front_cons, operand, ht, bind_apply, skip_apply, List.tail_cons, insideBars,
        within, State.withBars, inner.run (b := _ + 1) rfl, Nat.add_sub_cancel, closes.apply,
        bounded_tall hh, Tree.token]
  | signOperand ht hd _ ih =>
      refine run_factor_error hd ?_
      rcases ht with ht | ht <;>
        simp only [front_cons, operand, ht, bind_apply, skip_apply, List.tail_cons, ih hb]
  | signTall ht hd operand hh =>
      refine run_factor_error hd ?_
      rcases ht with ht | ht <;>
        simp only [front_cons, Parser.operand, ht, bind_apply, skip_apply, List.tail_cons,
          operand.run hb, bounded_tall hh, Tree.token]
  | missing hl h hd =>
      refine run_factor_error hd ?_
      simp only [operand, h, hl, if_false, fail_apply, Bool.false_eq_true]
  | @unexpected d c t ts hd hs ht =>
      refine run_factor_error hd ?_
      have ho : operand o stop (Parser.run o stop) t = fail (.unexpectedToken t.lexeme) t := by
        unfold operand
        split <;> simp_all [Kind.startsOperand]
      rw [front_cons, ho, fail_apply]

theorem exists_ofBars (c : Context) : ∃ b, Context.ofBars b = c := by
  cases c with
  | plain => exact ⟨0, rfl⟩
  | bars => exact ⟨1, rfl⟩

theorem Reads.moves (h : Reads o stop r d c ts t ts') : Moves stop r ts ts' := by
  obtain ⟨b, hb⟩ := exists_ofBars c
  exact moves_of_run (h.run hb)

theorem Reads.length_le (h : Reads o stop r d c ts t ts') : ts'.length ≤ ts.length :=
  h.moves.length_le

theorem Reads.length_lt (h : Reads o stop r d c ts t ts') (hr : r.isChain = false)
    (hk : (front stop ts).kind ≠ .endOfInput) : ts'.length < ts.length := h.moves.length_lt hr hk

theorem Reads.length_lt_of_front (h : Reads o stop r d c ts t ts') (hr : r.isChain = false)
    (hk : (front stop ts').kind ≠ .endOfInput) : ts'.length < ts.length := by
  refine h.length_lt hr fun he => hk ?_
  rw [h.moves.stays he]
  exact he

theorem Rule.rank_le (r : Rule) : r.rank ≤ 6 := by
  cases r <;> simp [rank]

def Settled (o : Options) (stop : Position) (r : Rule) (d : Nat) (c : Context) (ts : List Token) :
    Prop := (∃ t ts', Reads o stop r d c ts t ts') ∨ ∃ e ts', Fails o stop r d c ts e ts'

/-- The induction hypothesis of `settled`: the rules that weigh less. -/
structure SettledBelow (o : Options) (stop : Position) (r : Rule) (ts : List Token) : Prop where
  lower : ∀ r' d c ts', ts'.length ≤ ts.length → Rule.rank r' < r.rank → Settled o stop r' d c ts'
  shorter : ∀ r' d c ts', ts'.length < ts.length → Settled o stop r' d c ts'

theorem settled_expression (ih : SettledBelow o stop .expression ts) :
    Settled o stop .expression d c ts := by
  rcases ih.lower .term d c ts (Nat.le_refl _) (by simp [Rule.rank]) with
    ⟨t, ts₁, ht⟩ | ⟨e, ts', he⟩
  · have hl := ht.length_le
    rcases ih.lower (.sum t) d c ts₁ hl (by simp [Rule.rank]) with
      ⟨u, ts₂, hu⟩ | ⟨e, ts', he⟩
    · exact .inl ⟨_, _, .expression ht hu⟩
    · exact .inr ⟨_, _, .expressionMore ht he⟩
  · exact .inr ⟨_, _, .expressionFirst he⟩

theorem settled_sum (l : Tree) (ih : SettledBelow o stop (.sum l) ts) :
    Settled o stop (.sum l) d c ts := by
  by_cases h : (front stop ts).kind = .plus ∨ (front stop ts).kind = .minus
  · have hk : (front stop ts).kind ≠ .endOfInput := by rcases h with h | h <;> simp [h]
    obtain ⟨op, ts, rfl⟩ := exists_cons hk
    rcases ih.shorter .term d c ts (Nat.lt_succ_self _) with ⟨t, ts₁, ht⟩ | ⟨e, ts', he⟩
    · have hl := Nat.lt_succ_of_le ht.length_le
      by_cases hh : (Tree.binary op l t).height ≤ o.maxDepth
      · rcases ih.shorter (.sum (.binary op l t)) d c ts₁ hl with
          ⟨u, ts₂, hu⟩ | ⟨e, ts', he⟩
        · exact .inl ⟨_, _, .sumStep h ht hh hu⟩
        · exact .inr ⟨_, _, .sumMore h ht hh he⟩
      · exact .inr ⟨_, _, .sumTall h ht (Nat.lt_of_not_le hh)⟩
    · exact .inr ⟨_, _, .sumRight h he⟩
  · exact .inl ⟨_, _, .sumEnd h⟩

theorem settled_term (ih : SettledBelow o stop .term ts) :
    Settled o stop .term d c ts := by
  rcases ih.lower .power d c ts (Nat.le_refl _) (by simp [Rule.rank]) with
    ⟨t, ts₁, ht⟩ | ⟨e, ts', he⟩
  · have hl := ht.length_le
    rcases ih.lower (.product t) d c ts₁ hl (by simp [Rule.rank]) with
      ⟨u, ts₂, hu⟩ | ⟨e, ts', he⟩
    · exact .inl ⟨_, _, .term ht hu⟩
    · exact .inr ⟨_, _, .termMore ht he⟩
  · exact .inr ⟨_, _, .termFirst he⟩

theorem settled_signed (l : Tree) {op : Token} (sign : Signed c ts op ts₀)
    (ih : SettledBelow o stop (.product l) ts) :
    Settled o stop (.product l) d c ts := by
  have h₀ : ts₀.length ≤ ts.length := by cases sign <;> simp
  rcases ih.lower .power d c ts₀ h₀ (by simp [Rule.rank]) with ⟨t, ts₁, ht⟩ | ⟨e, ts', he⟩
  · have h₁ : ts₁.length < ts.length := by
      cases sign with
      | written => exact Nat.lt_succ_of_le ht.length_le
      | adjacent hj => exact ht.length_lt rfl (joins_ne_end hj)
    by_cases hh : (Tree.binary op l t).height ≤ o.maxDepth
    · rcases ih.shorter (.product (.binary op l t)) d c ts₁ h₁ with
        ⟨u, ts₂, hu⟩ | ⟨e, ts', he⟩
      · exact .inl ⟨_, _, .productStep sign ht hh hu⟩
      · exact .inr ⟨_, _, .productMore sign ht hh he⟩
    · exact .inr ⟨_, _, .productTall sign ht (Nat.lt_of_not_le hh)⟩
  · exact .inr ⟨_, _, .productRight sign he⟩

theorem settled_product (l : Tree)
    (ih : SettledBelow o stop (.product l) ts) :
    Settled o stop (.product l) d c ts := by
  by_cases h : (front stop ts).kind = .times ∨ (front stop ts).kind = .divide
  · have hk : (front stop ts).kind ≠ .endOfInput := by rcases h with h | h <;> simp [h]
    obtain ⟨op, ts, rfl⟩ := exists_cons hk
    exact settled_signed l (.written h) ih
  · cases hj : c.joins (front stop ts).kind with
    | false => exact .inl ⟨_, _, .productEnd h hj⟩
    | true =>
        obtain ⟨next, ts, rfl⟩ := exists_cons (joins_ne_end hj)
        exact settled_signed l (.adjacent hj) ih

theorem settled_power (ih : SettledBelow o stop .power ts) :
    Settled o stop .power d c ts := by
  rcases ih.lower .application d c ts (Nat.le_refl _) (by simp [Rule.rank]) with
    ⟨t, ts₁, ht⟩ | ⟨e, ts', he⟩
  · by_cases h : (front stop ts₁).kind = .power
    · have hk : (front stop ts₁).kind ≠ .endOfInput := by simp [h]
      have hlt := ht.length_lt_of_front rfl hk
      obtain ⟨op, ts₁, rfl⟩ := exists_cons hk
      rw [List.length_cons] at hlt
      by_cases hd : d < o.maxDepth
      · rcases ih.shorter .power (d + 1) c ts₁ (Nat.lt_of_succ_lt hlt) with
          ⟨u, ts₂, hu⟩ | ⟨e, ts', he⟩
        · by_cases hh : (Tree.binary op t u).height ≤ o.maxDepth
          · exact .inl ⟨_, _, .raised ht h hd hu hh⟩
          · exact .inr ⟨_, _, .powerTall ht h hd hu (Nat.lt_of_not_le hh)⟩
        · exact .inr ⟨_, _, .exponent ht h hd he⟩
      · exact .inr ⟨_, _, .exponentDeep ht h (Nat.le_of_not_lt hd)⟩
    · exact .inl ⟨_, _, .power ht h⟩
  · exact .inr ⟨_, _, .powerBase he⟩

theorem settled_application (ih : SettledBelow o stop .application ts) :
    Settled o stop .application d c ts := by
  rcases ih.lower .factor d c ts (Nat.le_refl _) (by simp [Rule.rank]) with
    ⟨t, ts₁, ht⟩ | ⟨e, ts', he⟩
  · cases h : t.isBareName && c.joins (front stop ts₁).kind with
    | false => exact .inl ⟨_, _, .application ht h⟩
    | true =>
        obtain ⟨hb, hj⟩ := Bool.and_eq_true_iff.1 h
        have hlt := ht.length_lt_of_front rfl (joins_ne_end hj)
        obtain ⟨next, ts₁, rfl⟩ := exists_cons (joins_ne_end hj)
        by_cases hd : d < o.maxDepth
        · rcases ih.shorter .application (d + 1) c (next :: ts₁) hlt with
            ⟨u, ts₂, hu⟩ | ⟨e, ts', he⟩
          · by_cases hh : (Tree.binary (.implied .juxtaposition next) t u).height ≤ o.maxDepth
            · exact .inl ⟨_, _, .applied ht hb hj hd hu hh⟩
            · exact .inr ⟨_, _, .applicationTall ht hb hj hd hu (Nat.lt_of_not_le hh)⟩
          · exact .inr ⟨_, _, .argument ht hb hj hd he⟩
        · exact .inr ⟨_, _, .argumentDeep ht hb hj (Nat.le_of_not_lt hd)⟩
  · exact .inr ⟨_, _, .callee he⟩

theorem closes_or_open (o : Options) (stop : Position) (k : Kind) (ts : List Token)
    (hk : k ≠ .endOfInput) :
    (∃ k? ts₁, Closes o stop k ts k? ts₁) ∨ (front stop ts).kind ≠ k ∧ o.isLenient = false := by
  by_cases h : (front stop ts).kind = k
  · obtain ⟨t, ts, rfl⟩ := exists_cons (h ▸ hk)
    exact .inl ⟨_, _, .written h⟩
  · cases hl : o.isLenient with
    | false => exact .inr ⟨h, rfl⟩
    | true => exact .inl ⟨_, _, .assumed hl h⟩

theorem settled_end (hd : d < o.maxDepth) (h : (front stop ts).kind = .endOfInput) :
    Settled o stop .factor d c ts := by
  cases hl : o.isLenient with
  | false => exact .inr ⟨_, _, .missing hl h hd⟩
  | true => exact .inl ⟨_, _, .missing hl h hd⟩

theorem settled_parens {opening : Token} (ho : opening.kind = .leftParen) (hd : d < o.maxDepth)
    (ih : Settled o stop .expression (d + 1) .plain ts) :
    Settled o stop .factor d c (opening :: ts) := by
  rcases ih with ⟨a, ts₁, ha⟩ | ⟨e, ts', he⟩
  · rcases closes_or_open o stop .rightParen ts₁ nofun with ⟨k, ts₂, hk⟩ | ⟨hk, hl⟩
    · exact .inl ⟨_, _, .parens ho hd ha hk⟩
    · exact .inr ⟨_, _, .parensOpen ho hd ha hk hl⟩
  · exact .inr ⟨_, _, .parensInner ho hd he⟩

theorem settled_bars {opening : Token} (ho : opening.kind = .bar) (hd : d < o.maxDepth)
    (ih : Settled o stop .expression (d + 1) .bars ts) :
    Settled o stop .factor d c (opening :: ts) := by
  rcases ih with ⟨a, ts₁, ha⟩ | ⟨e, ts', he⟩
  · rcases closes_or_open o stop .bar ts₁ nofun with ⟨k, ts₂, hk⟩ | ⟨hk, hl⟩
    · by_cases hh : (Tree.unary opening a).height ≤ o.maxDepth
      · exact .inl ⟨_, _, .bars ho hd ha hk hh⟩
      · exact .inr ⟨_, _, .barsTall ho hd ha hk (Nat.lt_of_not_le hh)⟩
    · exact .inr ⟨_, _, .barsOpen ho hd ha hk hl⟩
  · exact .inr ⟨_, _, .barsInner ho hd he⟩

theorem settled_sign {sign : Token} (hs : sign.kind = .plus ∨ sign.kind = .minus)
    (hd : d < o.maxDepth) (ih : Settled o stop .application (d + 1) c ts) :
    Settled o stop .factor d c (sign :: ts) := by
  rcases ih with ⟨a, ts₁, ha⟩ | ⟨e, ts', he⟩
  · by_cases hh : (Tree.unary sign a).height ≤ o.maxDepth
    · exact .inl ⟨_, _, .sign hs hd ha hh⟩
    · exact .inr ⟨_, _, .signTall hs hd ha (Nat.lt_of_not_le hh)⟩
  · exact .inr ⟨_, _, .signOperand hs hd he⟩

theorem settled_factor (ih : SettledBelow o stop .factor ts) :
    Settled o stop .factor d c ts := by
  by_cases hd : d < o.maxDepth
  · cases ts with
    | nil => exact settled_end hd rfl
    | cons t ts =>
        have below : ∀ r d c, Settled o stop r d c ts := fun r d c =>
          ih.shorter r d c ts (Nat.lt_succ_self _)
        cases ht : t.kind with
        | leftParen => exact settled_parens ht hd (below _ _ _)
        | bar => exact settled_bars ht hd (below _ _ _)
        | plus | minus => exact settled_sign (by simp [ht]) hd (below _ _ _)
        | identifier | integer | float => exact .inl ⟨_, _, .leaf (by simp [ht]) hd⟩
        | endOfInput => exact settled_end hd ht
        | times | divide | power | ampersand | percent | rightParen | juxtaposition
          | unclassified =>
            exact .inr ⟨_, _, .unexpected hd (by simp [ht, Kind.startsOperand]) (by simp [ht])⟩
  · exact .inr ⟨_, _, .factorDeep (Nat.le_of_not_lt hd)⟩

/-- From every place a rule goes one of the ways it can. -/
theorem settled (o : Options) (stop : Position) (r : Rule) (d : Nat) (c : Context)
    (ts : List Token) : Settled o stop r d c ts := by
  have ih : SettledBelow o stop r ts :=
    ⟨fun r' d' c' ts' _ _ => settled o stop r' d' c' ts', fun r' d' c' ts' _ =>
      have := r'.rank_le
      settled o stop r' d' c' ts'⟩
  cases r with
  | expression => exact settled_expression ih
  | sum l => exact settled_sum l ih
  | term => exact settled_term ih
  | product l => exact settled_product l ih
  | power => exact settled_power ih
  | application => exact settled_application ih
  | factor => exact settled_factor ih
termination_by 8 * ts.length + r.rank

theorem run_eq_ok_iff {s s' : State} : run o stop r s = .ok t s' ↔
    Reads o stop r s.depth (.ofBars s.bars) s.rest t s'.rest ∧ s' = { s with rest := s'.rest } := by
  constructor
  · intro h
    rcases settled o stop r s.depth (.ofBars s.bars) s.rest with ⟨u, ts', hu⟩ | ⟨e, ts', he⟩
    · have hr := hu.run rfl
      rw [h] at hr
      cases hr
      exact ⟨hu, rfl⟩
    · have hr := he.run rfl
      rw [h] at hr
      cases hr
  · rintro ⟨h, hs⟩
    rw [hs]
    exact h.run rfl

theorem run_eq_error_iff {s s' : State} : run o stop r s = .error e s' ↔
    Fails o stop r s.depth (.ofBars s.bars) s.rest e s'.rest ∧ s' = { s with rest := s'.rest } := by
  constructor
  · intro h
    rcases settled o stop r s.depth (.ofBars s.bars) s.rest with ⟨u, ts', hu⟩ | ⟨e, ts', he⟩
    · have hr := hu.run rfl
      rw [h] at hr
      cases hr
    · have hr := he.run rfl
      rw [h] at hr
      cases hr
      exact ⟨he, rfl⟩
  · rintro ⟨h, hs⟩
    rw [hs]
    exact h.run rfl

theorem Reads.unique {u : Tree} (h : Reads o stop r d c ts t ts')
    (h' : Reads o stop r d c ts u ts₁) : t = u ∧ ts' = ts₁ := by
  obtain ⟨b, hb⟩ := exists_ofBars c
  have he := (h.run hb).symm.trans (h'.run hb)
  cases he
  exact ⟨rfl, rfl⟩

end Reckon.Parser

namespace Reckon

open Reckon.Parser

variable {o : Options} {scan : Scan} {t : Tree} {e : SyntaxError} {rest : List Token}

theorem parse_nil (h : scan.tokens = []) : parse o scan = .ok (.leaf scan.finish) := by
  simp [parse, h]

def Parser.ending (o : Options) (t : Tree) : List Token → Except SyntaxError Tree
  | [] => .ok t
  | next :: _ =>
    if o.isLenient then .ok t else .error ⟨.trailingTokens next.lexeme, next.position⟩

theorem parse_of_reads (hne : scan.tokens ≠ [])
    (h : Reads o scan.stop .expression 0 .plain scan.tokens t rest) :
    parse o scan = ending o t rest := by
  have hr := h.run (b := 0) rfl
  obtain ⟨u, us, hu⟩ := List.exists_cons_of_ne_nil hne
  rw [hu] at hr
  simp only [parse, hu, hr]
  cases rest <;> rfl

theorem parse_of_fails (hne : scan.tokens ≠ [])
    (h : Fails o scan.stop .expression 0 .plain scan.tokens e rest) : parse o scan = .error e := by
  have hr := h.run (b := 0) rfl
  obtain ⟨u, us, hu⟩ := List.exists_cons_of_ne_nil hne
  rw [hu] at hr
  simp only [parse, hu, hr]

/-- A strict parser reads all the tokens; a lenient one leaves what it cannot read. -/
theorem parse_eq_ok_iff (hne : scan.tokens ≠ []) : parse o scan = .ok t ↔
    ∃ rest, Reads o scan.stop .expression 0 .plain scan.tokens t rest ∧
      (o.isLenient = false → rest = []) := by
  constructor
  · intro h
    rcases settled o scan.stop .expression 0 .plain scan.tokens with ⟨u, rest, hu⟩ | ⟨e, rest, he⟩
    · rw [parse_of_reads hne hu] at h
      cases rest with
      | nil => cases h; exact ⟨[], hu, fun _ => rfl⟩
      | cons next rest =>
          cases hl : o.isLenient with
          | false => simp [ending, hl] at h
          | true =>
              simp only [ending, hl, if_true, Except.ok.injEq] at h
              subst h
              exact ⟨_, hu, nofun⟩
    · rw [parse_of_fails hne he] at h
      cases h
  · rintro ⟨rest, hr, hl⟩
    rw [parse_of_reads hne hr]
    cases rest with
    | nil => rfl
    | cons next rest =>
        cases ho : o.isLenient with
        | false => cases hl ho
        | true => simp [ending, ho]

theorem parse_eq_error_iff (hne : scan.tokens ≠ []) : parse o scan = .error e ↔
    (∃ rest, Fails o scan.stop .expression 0 .plain scan.tokens e rest) ∨
      ∃ t next rest, Reads o scan.stop .expression 0 .plain scan.tokens t (next :: rest) ∧
        o.isLenient = false ∧ e = ⟨.trailingTokens next.lexeme, next.position⟩ := by
  constructor
  · intro h
    rcases settled o scan.stop .expression 0 .plain scan.tokens with ⟨u, rest, hu⟩ | ⟨e, rest, he⟩
    · rw [parse_of_reads hne hu] at h
      cases rest with
      | nil => cases h
      | cons next rest =>
          cases hl : o.isLenient with
          | false =>
              simp only [ending, hl, if_false, Except.error.injEq, Bool.false_eq_true] at h
              exact .inr ⟨u, next, rest, hu, rfl, h.symm⟩
          | true => simp [ending, hl] at h
    · rw [parse_of_fails hne he] at h
      cases h
      exact .inl ⟨rest, he⟩
  · rintro (⟨rest, hf⟩ | ⟨t, next, rest, hr, hl, rfl⟩)
    · exact parse_of_fails hne hf
    · rw [parse_of_reads hne hr]
      simp [ending, hl]

end Reckon
