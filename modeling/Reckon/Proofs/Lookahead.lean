import Reckon.Proofs.Outcome

namespace Reckon.Parser

variable {o : Options} {stop stop' : Position} {r : Rule} {d : Nat} {c : Context}
  {ts ts' ts₀ ts₁ us vs : List Token} {t : Tree} {e : SyntaxError} {op next : Token}

theorem front_append (h : front stop' vs = front stop ts) (us : List Token) :
    front stop' (us ++ vs) = front stop (us ++ ts) := by
  cases us with
  | nil => exact h
  | cons u us => rfl

/-- A step from `ts` to `ts'`, of which it sees just the first token. -/
def Looks (R : Position → List Token → List Token → Prop) (stop : Position)
    (ts ts' : List Token) : Prop :=
  ∃ us, ts = us ++ ts' ∧ ∀ stop' vs, front stop' vs = front stop ts' → R stop' (us ++ vs) vs

namespace Looks

variable {R R' R'' : Position → List Token → List Token → Prop}

theorem refl (h : ∀ stop' vs, front stop' vs = front stop ts → R stop' vs vs) :
    Looks R stop ts ts := ⟨[], rfl, h⟩

theorem trans (h : Looks R stop ts ts₁) (h' : Looks R' stop ts₁ ts')
    (hr : ∀ stop' us vs ws, front stop' vs = front stop ts₁ → front stop' ws = front stop ts' →
      R stop' us vs → R' stop' vs ws → R'' stop' us ws) : Looks R'' stop ts ts' := by
  obtain ⟨us, rfl, hu⟩ := h
  obtain ⟨us', rfl, hu'⟩ := h'
  refine ⟨us ++ us', (List.append_assoc ..).symm, ?_⟩
  intro stop' vs hf
  have hf' := front_append hf us'
  rw [List.append_assoc]
  exact hr _ _ _ _ hf' hf (hu _ _ hf') (hu' _ _ hf)

theorem comp (h : Looks R stop ts ts₁) (h' : Looks R' stop ts₁ ts') :
    Looks (fun stop' us ws => ∃ vs, R stop' us vs ∧ R' stop' vs ws) stop ts ts' :=
  h.trans h' fun _ _ vs _ _ _ hr hr' => ⟨vs, hr, hr'⟩

theorem imp (h : Looks R stop ts ts')
    (hr : ∀ stop' us vs, front stop' vs = front stop ts' → R stop' us vs → R' stop' us vs) :
    Looks R' stop ts ts' := by
  obtain ⟨us, rfl, hu⟩ := h
  exact ⟨us, rfl, fun stop' vs hf => hr _ _ _ hf (hu _ _ hf)⟩

theorem cons (h : Looks R stop ts ts') (t : Token) :
    Looks (fun stop' us vs => ∃ us', us = t :: us' ∧ R stop' us' vs) stop (t :: ts) ts' := by
  obtain ⟨us, rfl, hu⟩ := h
  exact ⟨t :: us, rfl, fun stop' vs hf => ⟨us ++ vs, rfl, hu _ _ hf⟩⟩

theorem again (h : Looks R stop ts (next :: ts')) (hu : ts = us ++ next :: ts') (stop' : Position)
    (vs : List Token) : R stop' (us ++ [next] ++ vs) (next :: vs) := by
  obtain ⟨us', hu', hr⟩ := h
  obtain rfl : us' = us := List.append_cancel_right (hu'.symm.trans hu)
  rw [List.append_assoc]
  exact hr stop' (next :: vs) rfl

theorem exists_eq (hf : front stop' vs = front stop (next :: ts)) (hn : next.kind ≠ .endOfInput) :
    ∃ vs', vs = next :: vs' := by
  rw [← front_cons stop next ts, ← hf] at hn
  obtain ⟨t, vs', rfl⟩ := exists_cons hn
  cases hf
  exact ⟨vs', rfl⟩

end Looks

theorem Closes.looks {k : Kind} {k? : Option Token} (h : Closes o stop k ts k? ts') :
    Looks (fun stop us vs => Closes o stop k us k? vs) stop ts ts' := by
  cases h with
  | @written t ts h => exact ⟨[t], rfl, fun _ _ _ => .written h⟩
  | assumed hl h => exact .refl fun _ _ hf => .assumed hl (hf ▸ h)

theorem Signed.looks (h : Signed c ts op ts₀) (stop : Position) :
    Looks (fun _ us vs => Signed c us op vs) stop ts ts₀ := by
  cases h with
  | @written op ts h => exact ⟨[op], rfl, fun _ _ _ => .written h⟩
  | adjacent h =>
      refine .refl fun _ _ hf => ?_
      obtain ⟨vs, rfl⟩ := Looks.exists_eq hf (joins_ne_end h)
      exact .adjacent h

theorem Reads.looks (h : Reads o stop r d c ts t ts') :
    Looks (fun stop us vs => Reads o stop r d c us t vs) stop ts ts' := by
  induction h with
  | expression _ _ ih ih' => exact ih.trans ih' fun _ _ _ _ _ _ => .expression
  | sumEnd h => exact .refl fun _ _ hf => .sumEnd (hf ▸ h)
  | @sumStep d c op ts ts₁ ts₂ l t u hop _ hh _ ih ih' =>
      refine (ih.cons op).trans ih' ?_
      rintro stop' _ _ _ - - ⟨us, rfl, right⟩ more
      exact .sumStep hop right hh more
  | term _ _ ih ih' => exact ih.trans ih' fun _ _ _ _ _ _ => .term
  | productEnd h hj => exact .refl fun _ _ hf => .productEnd (hf ▸ h) (hf ▸ hj)
  | productStep sign _ hh _ ih ih' =>
      refine ((sign.looks stop).comp ih).trans ih' ?_
      rintro stop' _ _ _ - - ⟨vs, sign, right⟩ more
      exact .productStep sign right hh more
  | power _ h ih => exact ih.imp fun _ _ _ hf base => .power base (hf ▸ h)
  | @raised d c op ts ts₁ ts₂ t u _ hop hd _ hh ih ih' =>
      refine ih.trans (ih'.cons op) ?_
      rintro stop' _ _ _ - - base ⟨us, rfl, exponent⟩
      exact .raised base hop hd exponent hh
  | application _ h ih => exact ih.imp fun _ _ _ hf callee => .application callee (hf ▸ h)
  | applied _ ht hj hd _ hh ih ih' =>
      refine ih.trans ih' ?_
      intro stop' _ _ _ hf _ callee argument
      obtain ⟨vs, rfl⟩ := Looks.exists_eq hf (joins_ne_end hj)
      exact .applied callee ht hj hd argument hh
  | @parens d c t ts ts₁ ts₂ a k ht hd _ closes ih =>
      refine (ih.cons t).trans closes.looks ?_
      rintro stop' _ _ _ - - ⟨us, rfl, inner⟩ closes
      exact .parens ht hd inner closes
  | @bars d c t ts ts₁ ts₂ a k ht hd _ closes hh ih =>
      refine (ih.cons t).trans closes.looks ?_
      rintro stop' _ _ _ - - ⟨us, rfl, inner⟩ closes
      exact .bars ht hd inner closes hh
  | @sign d c t ts ts₁ a ht hd _ hh ih =>
      refine (ih.cons t).imp ?_
      rintro stop' _ _ - ⟨us, rfl, operand⟩
      exact .sign ht hd operand hh
  | @leaf d c t ts ht hd => exact ⟨[t], rfl, fun _ _ _ => .leaf ht hd⟩
  | missing hl h hd =>
      refine .refl fun stop' vs hf => ?_
      rw [← hf] at h ⊢
      exact .missing hl h hd

/-- A failure is met with the same tokens ahead, whatever stands after the first of them. -/
theorem Fails.looks (h : Fails o stop r d c ts e ts') :
    Looks (fun stop us vs => Fails o stop r d c us e vs) stop ts ts' := by
  induction h with
  | expressionFirst _ ih => exact ih.imp fun _ _ _ _ => .expressionFirst
  | expressionMore first _ ih =>
      exact first.looks.trans ih fun _ _ _ _ _ _ => .expressionMore
  | @sumRight d c op ts ts' l e hop _ ih =>
      refine (ih.cons op).imp ?_
      rintro _ _ _ - ⟨us, rfl, right⟩
      exact .sumRight hop right
  | @sumTall d c op ts ts₁ l t hop right hh =>
      refine (right.looks.cons op).imp ?_
      rintro _ _ _ - ⟨us, rfl, right⟩
      exact .sumTall hop right hh
  | @sumMore d c op ts ts₁ ts' l t e hop right hh _ ih =>
      refine (right.looks.cons op).trans ih ?_
      rintro _ _ _ _ - - ⟨us, rfl, right⟩ more
      exact .sumMore hop right hh more
  | termFirst _ ih => exact ih.imp fun _ _ _ _ => .termFirst
  | termMore first _ ih => exact first.looks.trans ih fun _ _ _ _ _ _ => .termMore
  | productRight sign _ ih =>
      exact (sign.looks stop).trans ih fun _ _ _ _ _ _ => .productRight
  | productTall sign right hh =>
      exact (sign.looks stop).trans right.looks fun _ _ _ _ _ _ sign right =>
        .productTall sign right hh
  | productMore sign right hh _ ih =>
      refine ((sign.looks stop).comp right.looks).trans ih ?_
      rintro _ _ _ _ - - ⟨vs, sign, right⟩ more
      exact .productMore sign right hh more
  | powerBase _ ih => exact ih.imp fun _ _ _ _ => .powerBase
  | @exponentDeep d c op ts ts₁ t base hop hd =>
      obtain ⟨us, rfl, hu⟩ := base.looks
      refine ⟨us ++ [op], by simp, ?_⟩
      intro stop' vs hf
      rw [List.append_assoc]
      exact .exponentDeep (hu stop' (op :: vs) rfl) hop hd
  | @exponent d c op ts ts₁ ts' t e base hop hd _ ih =>
      refine base.looks.trans (ih.cons op) ?_
      rintro _ _ _ _ - - base ⟨us, rfl, exponent⟩
      exact .exponent base hop hd exponent
  | @powerTall d c op ts ts₁ ts₂ t u base hop hd exponent hh =>
      refine base.looks.trans (exponent.looks.cons op) ?_
      rintro _ _ _ _ - - base ⟨us, rfl, exponent⟩
      exact .powerTall base hop hd exponent hh
  | callee _ ih => exact ih.imp fun _ _ _ _ => .callee
  | argumentDeep callee ht hj hd =>
      refine callee.looks.imp ?_
      intro stop' us vs hf callee
      obtain ⟨vs, rfl⟩ := Looks.exists_eq hf (joins_ne_end hj)
      exact .argumentDeep callee ht hj hd
  | argument callee ht hj hd _ ih =>
      refine callee.looks.trans ih ?_
      intro stop' _ _ _ hf _ callee argument
      obtain ⟨vs, rfl⟩ := Looks.exists_eq hf (joins_ne_end hj)
      exact .argument callee ht hj hd argument
  | applicationTall callee ht hj hd argument hh =>
      refine callee.looks.trans argument.looks ?_
      intro stop' _ _ _ hf _ callee argument
      obtain ⟨vs, rfl⟩ := Looks.exists_eq hf (joins_ne_end hj)
      exact .applicationTall callee ht hj hd argument hh
  | factorDeep hd => exact .refl fun stop' vs hf => hf ▸ .factorDeep hd
  | @parensInner d c t ts ts' e ht hd _ ih =>
      refine (ih.cons t).imp ?_
      rintro _ _ _ - ⟨us, rfl, inner⟩
      exact .parensInner ht hd inner
  | @parensOpen d c t ts ts₁ a ht hd inner h hl =>
      refine (inner.looks.cons t).imp ?_
      rintro _ _ _ hf ⟨us, rfl, inner⟩
      exact .parensOpen ht hd inner (hf ▸ h) hl
  | @barsInner d c t ts ts' e ht hd _ ih =>
      refine (ih.cons t).imp ?_
      rintro _ _ _ - ⟨us, rfl, inner⟩
      exact .barsInner ht hd inner
  | @barsOpen d c t ts ts₁ a ht hd inner h hl =>
      refine (inner.looks.cons t).imp ?_
      rintro _ _ _ hf ⟨us, rfl, inner⟩
      exact .barsOpen ht hd inner (hf ▸ h) hl
  | @barsTall d c t ts ts₁ ts₂ a k ht hd inner closes hh =>
      refine (inner.looks.cons t).trans closes.looks ?_
      rintro _ _ _ _ - - ⟨us, rfl, inner⟩ closes
      exact .barsTall ht hd inner closes hh
  | @signOperand d c t ts ts' e ht hd _ ih =>
      refine (ih.cons t).imp ?_
      rintro _ _ _ - ⟨us, rfl, operand⟩
      exact .signOperand ht hd operand
  | @signTall d c t ts ts₁ a ht hd operand hh =>
      refine (operand.looks.cons t).imp ?_
      rintro _ _ _ - ⟨us, rfl, operand⟩
      exact .signTall ht hd operand hh
  | missing hl h hd =>
      refine .refl fun stop' vs hf => ?_
      rw [← hf] at h ⊢
      exact .missing hl h hd
  | unexpected hd hs ht =>
      refine .refl fun stop' vs hf => ?_
      obtain ⟨vs, rfl⟩ := Looks.exists_eq hf ht.2.2
      exact .unexpected hd hs ht

end Reckon.Parser
