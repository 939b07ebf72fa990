import Reckon.Proofs.Blame

namespace Reckon

def Kind.isNumber : Kind → Bool
  | integer | float => true
  | _ => false

/-- Trees that differ at most in the kinds of literals. -/
inductive Tree.Switches : Tree → Tree → Prop
  | leaf (t) : Switches (.leaf t) (.leaf t)
  | literal {t k} (h : t.kind.isNumber = true) (hk : k.isNumber = true) :
      Switches (.leaf t) (.leaf { t with kind := k })
  | unary {t a a'} (ha : Switches a a') : Switches (.unary t a) (.unary t a')
  | binary {t a a' b b'} (ha : Switches a a') (hb : Switches b b') :
      Switches (.binary t a b) (.binary t a' b')

inductive Meaning.Switches : Meaning → Meaning → Prop
  | constant (x k k') : Switches (.constant ⟨x, k⟩) (.constant ⟨x, k'⟩)
  | function (f) : Switches (.function f) (.function f)

def Symbols.Switches (s s' : Symbols) : Prop :=
  ∀ name, Option.Rel Meaning.Switches (s.get? name) (s'.get? name)

/-- The same error, or values with the same number. -/
inductive SameNumber : Except EvalError Value → Except EvalError Value → Prop
  | error (e) : SameNumber (.error e) (.error e)
  | ok (x k k') : SameNumber (.ok ⟨x, k⟩) (.ok ⟨x, k'⟩)

section Eval

variable {s s' : Symbols} {r r' : Except EvalError Value} {a a' b b' t t' : Tree} {u : Token}

theorem SameNumber.refl : (r : Except EvalError Value) → SameNumber r r
  | .error e => .error e
  | .ok ⟨x, k⟩ => .ok x k k

theorem SameNumber.bind_eq {f f' : Value → Except EvalError Value} (h : SameNumber r r')
    (hf : ∀ x k k', f ⟨x, k⟩ = f' ⟨x, k'⟩) : r >>= f = r' >>= f' := by
  cases h with
  | error e => rfl
  | ok x k k' => exact hf x k k'

theorem SameNumber.eval_unary (h : SameNumber (s.eval a) (s'.eval a'))
    (hu : u.kind = .plus ∨ u.kind = .minus ∨ u.kind = .bar) :
    s.eval (.unary u a) = s'.eval (.unary u a') := by
  rw [Symbols.eval, Symbols.eval]
  rcases hu with hu | hu | hu <;> rw [hu] <;> exact h.bind_eq fun _ _ _ => rfl

theorem literal_switches (t : Token) (k : Kind) :
    SameNumber t.literal { t with kind := k }.literal := by
  unfold Token.literal
  cases Literal.read? t.lexeme with
  | none => exact .error _
  | some x =>
      simp only
      split <;> split <;> exact .ok x _ _

theorem alone_of_isNumber {t : Token} (h : t.kind.isNumber = true) : s.alone t = t.literal := by
  unfold Symbols.alone
  cases hk : t.kind with
  | integer | float => rfl
  | _ =>
      rw [hk] at h
      cases h

namespace Symbols.Switches

theorem of_define {name : String} {m m' : Meaning} (h : s.get? name = some m)
    (hm : m.Switches m') : s.Switches (s.define name m') := by
  intro other
  rw [get?_define]
  split
  case isTrue hn =>
    rw [← hn, h]
    exact .some hm
  case isFalse =>
    cases hg : s.get? other with
    | none => exact .none
    | some m =>
        refine .some ?_
        cases m with
        | constant v => exact .constant v.number v.kind v.kind
        | function f => exact .function f

variable (hs : s.Switches s')
include hs

theorem named (t : Token) : SameNumber (s.named t none) (s'.named t none) := by
  have h := hs t.lexeme
  unfold Symbols.named
  generalize s.get? t.lexeme = m at h ⊢
  generalize s'.get? t.lexeme = m' at h ⊢
  cases h with
  | none => exact .error _
  | some h =>
      cases h with
      | constant x k k' => exact .ok x k k'
      | function f => exact .error _

theorem alone (t : Token) : SameNumber (s.alone t) (s'.alone t) := by
  unfold Symbols.alone
  cases t.kind with
  | identifier => exact hs.named t
  | _ => exact .refl _

theorem function?_eq (ha : a.Switches a') : s.function? a = s'.function? a' := by
  cases ha with
  | leaf t =>
      have h := hs t.lexeme
      unfold Symbols.function? Tree.token
      generalize s.get? t.lexeme = m at h ⊢
      generalize s'.get? t.lexeme = m' at h ⊢
      cases h with
      | none => rfl
      | some h => cases h <;> rfl
  | @literal t k h hk =>
      have not_name {k : Kind} (h : k.isNumber = true) : ¬k = .identifier := by
        rintro rfl
        cases h
      simp [Symbols.function?, Tree.isBareName, not_name h, not_name hk]
  | unary | binary => rfl

theorem eval_binary (hu : u.kind.isInfix = true) (ha : a.Switches a')
    (h : SameNumber (s.eval a) (s'.eval a')) (h' : SameNumber (s.eval b) (s'.eval b')) :
    s.eval (.binary u a b) = s'.eval (.binary u a' b') := by
  rw [Symbols.eval, Symbols.eval, hs.function?_eq ha]
  cases hk : u.kind with
  | plus | minus | times | divide | power =>
      exact h.bind_eq fun _ _ _ => h'.bind_eq fun _ _ _ => rfl
  | juxtaposition =>
      simp only
      cases s'.function? a' with
      | some f => exact h'.bind_eq fun _ _ _ => rfl
      | none => exact h.bind_eq fun _ _ _ => h'.bind_eq fun _ _ _ => rfl
  | _ =>
      rw [hk] at hu
      cases hu

theorem eval (ht : t.WellFormed) (hst : t.Switches t') : SameNumber (s.eval t) (s'.eval t') := by
  induction hst with
  | leaf t => exact hs.alone t
  | @literal t k h hk =>
      rw [Symbols.eval, Symbols.eval, alone_of_isNumber h, alone_of_isNumber (s := s') hk]
      exact literal_switches t k
  | unary _ ih =>
      cases ht with
      | unary hu ha =>
          rw [(ih ha).eval_unary hu]
          exact .refl _
  | binary hst _ ih ih' =>
      cases ht with
      | binary hu ha hb =>
          rw [hs.eval_binary hu hst (ih ha) (ih' hb)]
          exact .refl _

theorem eval_eq (ht : t.WellFormed) (hst : t.Switches t') (hl : ∀ u, t ≠ .leaf u) :
    s.eval t = s'.eval t' := by
  cases hst with
  | leaf t => exact absurd rfl (hl t)
  | @literal t => exact absurd rfl (hl t)
  | unary ha =>
      cases ht with
      | unary hu hw => exact (hs.eval hw ha).eval_unary hu
  | binary ha hb =>
      cases ht with
      | binary hu hw hw' => exact hs.eval_binary hu ha (hs.eval hw ha) (hs.eval hw' hb)

end Symbols.Switches

end Eval

open Reckon.Parser

variable {o : Options} {text : String} {t t' : Tree} {s s' : Symbols}

/-- The kinds that literals and constants are declared with do not change what is wrong with an
expression, nor its number, nor the kind of its value unless this is a literal or a constant. -/
theorem eval_ignores_kinds (h : parse o (.ofString text) = .ok t) (ht : t.Switches t')
    (hs : s.Switches s') :
    (∀ e, s'.eval t' = .error e ↔ s.eval t = .error e) ∧
      ∀ v, s.eval t = .ok v → ∃ v', s'.eval t' = .ok v' ∧ v'.number = v.number ∧
        ((∀ u, t ≠ .leaf u) → v'.kind = v.kind) := by
  have hw := wellFormed_of_parse h
  have hr := hs.eval hw ht
  constructor
  · intro e
    generalize s.eval t = r at hr
    generalize s'.eval t' = r' at hr
    cases hr with
    | error => rfl
    | ok x k k' =>
        refine iff_of_false (fun h => ?_) (fun h => ?_)
        · cases h
        · cases h
  · intro v hv
    by_cases hl : ∀ u, t ≠ .leaf u
    · exact ⟨v, hs.eval_eq hw ht hl ▸ hv, rfl, fun _ => rfl⟩
    · rw [hv] at hr
      generalize s'.eval t' = r' at hr
      cases hr with
      | ok x k k' => exact ⟨⟨x, k'⟩, rfl, rfl, fun h => absurd h hl⟩

theorem eval_twice_pi_of_other_kinds :
    ∃ t t', parse .default (.ofString "2pi") = .ok t ∧ t.Switches t' ∧ t ≠ t' ∧
      Symbols.standard.Switches
        (Symbols.standard.define "pi" (.constant (.integer Symbols.pi))) ∧
      ∃ v, Symbols.standard.eval t = .ok v ∧ ∃ v',
        (Symbols.standard.define "pi" (.constant (.integer Symbols.pi))).eval t' = .ok v' ∧
          v'.number = v.number ∧ v'.kind = v.kind := by
  have hp : parse .default (.ofString "2pi") =
      .ok (.binary ⟨.juxtaposition, "", 0, ⟨1, 1, 2⟩⟩ (.leaf ⟨.integer, "2", 1, ⟨0, 1, 1⟩⟩)
        (.leaf ⟨.identifier, "pi", 2, ⟨1, 1, 2⟩⟩)) := by decide +kernel
  have ht : Tree.Switches
      (.binary ⟨.juxtaposition, "", 0, ⟨1, 1, 2⟩⟩ (.leaf ⟨.integer, "2", 1, ⟨0, 1, 1⟩⟩)
        (.leaf ⟨.identifier, "pi", 2, ⟨1, 1, 2⟩⟩))
      (.binary ⟨.juxtaposition, "", 0, ⟨1, 1, 2⟩⟩ (.leaf ⟨.float, "2", 1, ⟨0, 1, 1⟩⟩)
        (.leaf ⟨.identifier, "pi", 2, ⟨1, 1, 2⟩⟩)) := .binary (.literal rfl rfl) (.leaf _)
  have hs : Symbols.standard.Switches
      (Symbols.standard.define "pi" (.constant (.integer Symbols.pi))) :=
    .of_define (m := .constant (.float Symbols.pi)) rfl (.constant Symbols.pi .float .integer)
  have hr := (wellFormed_of_parse hp).reports (s := Symbols.standard)
  rw [show Symbols.standard.firstError? _ = none by decide +kernel] at hr
  obtain ⟨v, hv⟩ := hr
  obtain ⟨v', hv', hn, hk⟩ := (eval_ignores_kinds hp ht hs).2 v hv
  exact ⟨_, _, hp, ht, by decide, hs, v, hv, v', hv', hn, hk (by rintro u ⟨⟩)⟩

end Reckon
