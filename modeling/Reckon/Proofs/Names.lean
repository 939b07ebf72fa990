import Reckon.Proofs.Blame

namespace Reckon

def Tree.names : Tree → List String
  | leaf t => if t.kind = .identifier then [t.lexeme] else []
  | unary _ a => a.names
  | binary _ a b => a.names ++ b.names
  | rightOnly _ b => b.names

/-- Two tables have the same constants and functions, and lack the same, among some names. -/
def Symbols.AgreeOn (s s' : Symbols) (names : List String) : Prop :=
  ∀ name ∈ names, s.get? name = s'.get? name

section Eval

variable {s s' : Symbols} {t a b : Tree}

theorem Symbols.AgreeOn.left {xs ys : List String} (h : s.AgreeOn s' (xs ++ ys)) :
    s.AgreeOn s' xs := fun name hn => h name (List.mem_append_left ys hn)

theorem Symbols.AgreeOn.right {xs ys : List String} (h : s.AgreeOn s' (xs ++ ys)) :
    s.AgreeOn s' ys := fun name hn => h name (List.mem_append_right xs hn)

theorem Symbols.AgreeOn.get?_leaf {t : Token} (h : s.AgreeOn s' (Tree.leaf t).names)
    (ht : t.kind = .identifier) : s.get? t.lexeme = s'.get? t.lexeme :=
  h t.lexeme (by simp [Tree.names, ht])

theorem Symbols.alone_congr {t : Token} (h : s.AgreeOn s' (Tree.leaf t).names) :
    s.alone t = s'.alone t := by
  cases ht : t.kind with
  | identifier => simp only [alone, ht, named, h.get?_leaf ht]
  | _ => simp only [alone, ht]

theorem Symbols.function?_congr (h : s.AgreeOn s' a.names) : s.function? a = s'.function? a := by
  cases a with
  | leaf t =>
      by_cases ht : t.kind = .identifier
      · simp only [function?, Tree.token, h.get?_leaf ht]
      · simp [function?, Tree.isBareName, ht]
  | _ => rfl

theorem Tree.WellFormed.eval_congr (ht : t.WellFormed) (h : s.AgreeOn s' t.names) :
    s.eval t = s'.eval t := by
  induction ht with
  | leaf => exact Symbols.alone_congr h
  | unary hu _ ih =>
      rw [Symbols.eval, Symbols.eval, ih h]
      rcases hu with hu | hu | hu <;> rw [hu]
  | @binary u a b hu _ _ ih ih' =>
      rw [Symbols.eval, Symbols.eval, ih h.left, ih' h.right, Symbols.function?_congr h.left]
      cases hk : u.kind with
      | plus | minus | times | divide | power | juxtaposition => rfl
      | _ => exact absurd hu (by rw [hk]; decide)

end Eval

theorem Tree.mem_names_iff {t : Tree} (callee : Bool) {name : String} : name ∈ t.names ↔
    ∃ l ∈ t.leavesAs callee, l.token.kind = .identifier ∧ l.token.lexeme = name := by
  induction t generalizing callee with
  | leaf t =>
      by_cases h : t.kind = .identifier
      · simp [names, leavesAs, h, eq_comm]
      · simp [names, leavesAs, h]
  | unary _ a ih => exact ih false
  | binary op a b iha ihb =>
      simp only [names, leavesAs, List.mem_append, iha (op.kind = .juxtaposition), ihb false,
        or_and_right, exists_or]
  | rightOnly _ b ih => exact ih false

open Reckon.Parser

variable {o : Options} {text : String} {t : Tree}

theorem exists_token_of_mem_names (h : parse o (.ofString text) = .ok t) {name : String}
    (hn : name ∈ t.names) :
    ∃ u ∈ (Scan.ofString text).tokens, u.kind = .identifier ∧ u.lexeme = name := by
  obtain ⟨l, hl, hk, hn⟩ := (Tree.mem_names_iff false).1 hn
  exact ⟨l.token, mem_tokens_of_mem_leaves h hl (by rw [hk]; decide), hk, hn⟩

/-- What a table holds under other names makes no difference, and no more does what is added to it
there. A name of the tree is one of the text. -/
theorem evaluate_congr_names (o : Options) (text : String) :
    (∀ s s' : Symbols, (∀ t, parse o (.ofString text) = .ok t → s.AgreeOn s' t.names) →
      evaluate o s text = evaluate o s' text) ∧
    (∀ (s : Symbols) (definitions : List (String × Meaning)),
      (∀ t, parse o (.ofString text) = .ok t → ∀ d ∈ definitions, d.1 ∉ t.names) →
      evaluate o (s.defineAll definitions) text = evaluate o s text) ∧
    ∀ t, parse o (.ofString text) = .ok t → ∀ name ∈ t.names,
      ∃ u ∈ (Scan.ofString text).tokens, u.kind = .identifier ∧ u.lexeme = name := by
  have agree (s s' : Symbols)
      (h : ∀ t, parse o (.ofString text) = .ok t → s.AgreeOn s' t.names) :
      evaluate o s text = evaluate o s' text := by
    rw [evaluate, evaluate]
    cases hp : parse o (.ofString text) with
    | error e => rfl
    | ok t => simp only [(wellFormed_of_parse hp).eval_congr (h t hp)]
  refine ⟨agree, fun s ds h => agree _ _ fun t ht name hn => ?_, fun t ht name hn =>
    exists_token_of_mem_names ht hn⟩
  exact s.get?_defineAll_of_forall_ne fun d hd he => h t ht d hd (he ▸ hn)

theorem evaluate_cos_pi_of_other_names :
    evaluate .default (Symbols.standard.defineAll
        [("g", .constant (.integer 2)), ("tan", .constant (.integer 3)), ("sin", .function id)])
        "cos 2pi" =
      evaluate .default .standard "cos 2pi" := by
  have h : parse .default (.ofString "cos 2pi") =
      .ok (.binary ⟨.juxtaposition, "", 0, ⟨5, 1, 6⟩⟩
        (.binary ⟨.juxtaposition, "", 0, ⟨4, 1, 5⟩⟩ (.leaf ⟨.identifier, "cos", 3, ⟨0, 1, 1⟩⟩)
          (.leaf ⟨.integer, "2", 1, ⟨4, 1, 5⟩⟩))
        (.leaf ⟨.identifier, "pi", 2, ⟨5, 1, 6⟩⟩)) := by decide +kernel
  refine (evaluate_congr_names _ _).2.1 _ _ fun t ht => ?_
  cases h.symm.trans ht
  decide

end Reckon
