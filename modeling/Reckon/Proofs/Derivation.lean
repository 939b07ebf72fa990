import Reckon.Proofs.DepthLimit

namespace Reckon

open Reckon.Parser

variable {scan : Scan} {d n : Nat} {p : Phrase} {w : List Token} {t t' : Tree}

theorem Parser.Fits.reads_alone (h : Fits none .plain .expression p .endOfInput) (stop : Position)
    (hn : max p.tree.height p.nesting ≤ n) :
    Reads ⟨.strict, n⟩ stop .expression 0 .plain p.tokens p.tree [] := by
  have hp : Precedes stop .plain .expression .endOfInput [] :=
    ⟨rfl, fun _ => rfl, Context.before_of_closes rfl⟩
  have hr := (Fits.reads (o := ⟨.strict, n⟩) h hp (p.admitted_zero.2 hn)).whole rfl
  rwa [List.append_nil] at hr

theorem Parser.Derives.unique (h : Derives w t) (h' : Derives w t') : t = t' := by
  obtain ⟨p, hp, rfl, rfl⟩ := h
  obtain ⟨q, hq, hw, rfl⟩ := h'
  have hr := hp.reads_alone .start (Nat.le_max_left _ (max q.tree.height q.nesting))
  have hr' := hq.reads_alone .start (Nat.le_max_right (max p.tree.height p.nesting) _)
  rw [hw] at hr'
  exact (hr.unique hr').1

theorem Parser.Fits.parse_alone (h : Fits none .plain .expression p .endOfInput)
    (hp : scan.tokens = p.tokens) (hne : scan.tokens ≠ [])
    (hd : max p.tree.height p.nesting ≤ d) : parse ⟨.strict, d⟩ scan = .ok p.tree := by
  refine (parse_eq_ok_iff hne).2 ⟨[], ?_, fun _ => rfl⟩
  rw [hp]
  exact h.reads_alone scan.stop hd

theorem exists_parse_of_derives (hne : scan.tokens ≠ []) (h : Derives scan.tokens t) :
    ∃ n, ∀ d ≥ n, parse ⟨.strict, d⟩ scan = .ok t := by
  obtain ⟨p, hp, hw, rfl⟩ := h
  refine ⟨max p.tree.height p.nesting, ?_⟩
  intro d hd
  exact hp.parse_alone hw.symm hne hd

theorem derives_of_parse (hw : ∀ t ∈ scan.tokens, t.kind ≠ .endOfInput) (hne : scan.tokens ≠ [])
    (h : parse ⟨.strict, d⟩ scan = .ok t) : Derives scan.tokens t := by
  obtain ⟨p, rest, hp, _, rfl⟩ := (parse_eq_ok_iff_heads hw hne).1 h
  cases hp.all rfl
  exact ⟨p, hp.fits, by rw [hp.tokens, List.append_nil], rfl⟩

/-- The strict parser finds a tree exactly for the token lists that have a derivation, and then the
tree of it; no list has two. -/
theorem strict_parse_iff_derives (text : String) (d : Nat) (hne : (Scan.ofString text).tokens ≠ [])
    (hd : ¬IsTooDeep (parse ⟨.strict, d⟩ (.ofString text))) :
    (∀ t, parse ⟨.strict, d⟩ (.ofString text) = .ok t ↔
      Derives (Scan.ofString text).tokens t) ∧
      ∀ w t t', Derives w t → Derives w t' → t = t' := by
  constructor
  · intro t
    constructor
    · exact derives_of_parse (Scan.ne_end_of_mem text) hne
    · intro h
      obtain ⟨n, hn⟩ := exists_parse_of_derives hne h
      rw [← parse_eq_of_le hd (Nat.le_max_left d n)]
      exact hn _ (Nat.le_max_right d n)
  · intro w t t' h h'
    exact h.unique h'

theorem derives_name_bars_number :
    (Scan.ofString "f|x|2").tokens ≠ [] ∧
      ¬IsTooDeep (parse ⟨.strict, 4⟩ (.ofString "f|x|2")) ∧
      ∃ t, t.height = 4 ∧ Derives (Scan.ofString "f|x|2").tokens t := by
  have hne : (Scan.ofString "f|x|2").tokens ≠ [] := by decide
  have hh : (parse ⟨.strict, 4⟩ (.ofString "f|x|2")).toOption.map Tree.height = some 4 := by decide
  cases h : parse ⟨.strict, 4⟩ (.ofString "f|x|2") with
  | error e =>
      rw [h] at hh
      cases hh
  | ok t =>
      rw [h] at hh
      have hd := not_isTooDeep_ok t
      refine ⟨hne, hd, t, Option.some.inj hh, ?_⟩
      exact ((strict_parse_iff_derives "f|x|2" 4 hne (h ▸ hd)).1 t).1 h

end Reckon
