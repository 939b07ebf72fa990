import Reckon.Proofs.Insertion
import Reckon.Proofs.Wording

namespace Reckon

namespace Tree

/-- Whether an operator was not written, with something else than a name in front. -/
def lacksStar (op : Token) (a : Tree) : Bool := op.lexeme = "" && !a.isBareName

def starred : Tree → Tree
  | leaf t => leaf t
  | unary op a => unary op a.starred
  | binary op a b => binary (if lacksStar op a then .star else op) a.starred b.starred
  | rightOnly op b => rightOnly op b.starred

def starPlaces : Tree → List Nat
  | leaf _ => []
  | unary _ a => a.starPlaces
  | binary op a b =>
    a.starPlaces ++ ((if lacksStar op a then [op.position.offset] else []) ++ b.starPlaces)
  | rightOnly _ b => b.starPlaces

theorem lacksStar_of_written {op : Token} (h : op.lexeme ≠ "") (a : Tree) :
    lacksStar op a = false := by
  simp [lacksStar, h]

theorem lacksStar_of_bareName (op : Token) {a : Tree} (h : a.isBareName = true) :
    lacksStar op a = false := by
  simp [lacksStar, h]

theorem starPlaces_of_not_lacksStar {op : Token} {a : Tree} (h : lacksStar op a = false) (b : Tree) :
    (binary op a b).starPlaces = a.starPlaces ++ b.starPlaces := by
  simp [starPlaces, h]

theorem starred_of_not_lacksStar {op : Token} {a : Tree} (h : lacksStar op a = false) (b : Tree) :
    (binary op a b).starred = binary op a.starred b.starred := by
  simp [starred, h]

theorem height_starred (t : Tree) : t.starred.height = t.height := by
  induction t with
  | leaf | rightOnly => rfl
  | unary _ _ ih => rw [starred, height, height, ih]
  | binary _ _ _ ih ih' => rw [starred, height, height, ih, ih']

end Tree

namespace Parser

variable {spare : Option Token} {c : Context} {lvl : Level} {p : Phrase} {k : Kind}

/-- In front of an operand nothing is left out, so a phrase goes there that goes in front of what
starts none. -/
theorem Fits.before_other (h : Fits spare c lvl p k) (hk : c.joins k = true) {k' : Kind}
    (hk' : c.joins k' = false) : Fits spare c lvl p k' := by
  have hn : k.ends = false := by
    cases k <;> first | rfl | cases Context.joins_plain hk
  induction h with
  | term _ ih => exact .term (ih hk hk' hn)
  | sum left hop _ _ ih => exact .sum left hop (ih hk hk' hn)
  | power _ ih => exact .power (ih hk hk' hn)
  | product left hop _ _ ih => exact .product left hop (ih hk hk' hn)
  | adjacent left hj _ _ ih => exact .adjacent left hj (ih hk hk' hn)
  | application _ ih => exact .application (ih hk hk' hn)
  | raised base hop _ _ ih => exact .raised base hop (ih hk hk' hn)
  | factor _ _ ih => exact .factor (ih hk hk' hn) (by rw [hk', Bool.and_false])
  | applied callee hp hj _ _ ih => exact .applied callee hp hj (ih hk hk' hn)
  | parens ht inner closed =>
      -- a delimiter is left out only where an expression ends
      cases closed with
      | written h => exact .parens ht inner (.written h)
      | assumed _ _ he => exact absurd he (by simp [hn])
  | bars ht inner closed =>
      cases closed with
      | written h => exact .bars ht inner (.written h)
      | assumed _ _ he => exact absurd he (by simp [hn])
  | sign ht _ ih => exact .sign ht (ih hk hk' hn)
  | operand ht => exact .operand ht
  | missing => cases hn

namespace Phrase

def starred : Phrase → Phrase
  | operand t => operand t
  | parens t a k => parens t a.starred k
  | bars t a k => bars t a.starred k
  | sign op a => sign op a.starred
  | applied a b => applied a.starred b.starred
  | power a op b => power a.starred op b.starred
  | product a op b => product a.starred (some (op.getD .star)) b.starred
  | sum a op b => sum a.starred op b.starred

@[simp] theorem first_starred (p : Phrase) : p.starred.first = p.first := by
  induction p with
  | operand | parens | bars | sign => rfl
  | applied _ _ ih | power _ _ _ ih | product _ _ _ ih | sum _ _ _ ih => exact ih

@[simp] theorem isBareName_starred (p : Phrase) :
    p.starred.tree.isBareName = p.tree.isBareName := by
  induction p with
  | parens _ _ _ ih => exact ih
  | operand | bars | sign | applied | power | product | sum => rfl

@[simp] theorem nesting_starred (p : Phrase) : p.starred.nesting = p.nesting := by
  induction p <;> simp_all [starred]

end Phrase

theorem Fits.starred (h : Fits spare c lvl p k) : Fits spare c lvl p.starred k := by
  induction h with
  | term _ ih => exact .term ih
  | sum _ hop _ ih ih' => exact .sum ih hop ih'
  | power _ ih => exact .power ih
  | product _ hop _ ih ih' => exact .product ih hop ih'
  | @adjacent c p q k _ hj _ ih ih' =>
      have hs : c.joins .times = false := Context.joins_operator rfl
      have ht : Token.star.kind = .times ∨ Token.star.kind = .divide := .inl rfl
      exact .product (ih.before_other hj hs) ht ih'
  | application _ ih => exact .application ih
  | raised _ hop _ ih ih' => exact .raised ih hop ih'
  | factor _ hn ih => exact .factor ih (by rwa [Phrase.isBareName_starred])
  | applied _ hp hj _ ih ih' =>
      refine .applied ?_ (by rwa [Phrase.isBareName_starred]) (by rwa [Phrase.first_starred]) ih'
      rwa [Phrase.first_starred]
  | parens ht _ closed ih => exact .parens ht ih closed
  | bars ht _ closed ih => exact .bars ht ih closed
  | sign ht _ ih => exact .sign ht ih
  | operand ht => exact .operand ht
  | missing h => exact .missing h

theorem Fits.lacksStar (h : Fits spare c .term p k) (hk : c.joins k = true) (next : Token) :
    Tree.lacksStar (between next) p.tree = true := by
  simp [Tree.lacksStar, h.not_bareName hk, between, Token.implied]

theorem Fits.tree_starred (h : Fits spare c lvl p k) (ho : Ordered p.tokens) :
    p.starred.tree = p.tree.starred := by
  induction h with
  | term _ ih | power _ ih | application _ ih | factor _ _ ih => exact ih ho
  | sum _ _ _ ih ih' | product _ _ _ ih ih' | raised _ _ _ ih ih' =>
      have hop := ho.right.lexeme _ List.mem_cons_self
      -- what was written has a text, so no star takes its place
      refine .trans ?_ (Tree.starred_of_not_lacksStar (Tree.lacksStar_of_written hop _) _).symm
      rw [← ih ho.left, ← ih' ho.right.tail]
      rfl
  | @adjacent c p q k left hj _ ih ih' =>
      have ho : Ordered (p.tokens ++ q.tokens) := ho
      show _ = Tree.starred (.binary (between q.first) p.tree q.tree)
      rw [Tree.starred, left.lacksStar hj, ← ih ho.left, ← ih' ho.right]
      rfl
  | @applied c p q k _ hb _ _ ih ih' =>
      have ho : Ordered (p.tokens ++ q.tokens) := ho
      refine .trans ?_ (Tree.starred_of_not_lacksStar (Tree.lacksStar_of_bareName _ hb) _).symm
      rw [← ih ho.left, ← ih' ho.right, Phrase.starred, Phrase.tree, Phrase.first_starred]
  | parens _ _ _ ih => exact ih ho.tail.left
  | bars _ _ _ ih => exact congrArg _ (ih ho.tail.left)
  | sign _ _ ih => exact congrArg _ (ih ho.tail)
  | operand | missing => rfl

theorem Fits.stars (h : Fits spare c lvl p k) (ho : Ordered p.tokens) :
    Stars p.tree.starPlaces p.tokens (p.starred.tokens.map Token.anywhere) := by
  induction h with
  | term _ ih | power _ ih | application _ ih | factor _ _ ih => exact ih ho
  | sum _ _ _ ih ih' | raised _ _ _ ih ih' | product _ _ _ ih ih' =>
      have hop := ho.right.lexeme _ List.mem_cons_self
      have hs := (ih ho.left).append ((ih' ho.right.tail).cons ho.right) ho
      rw [← List.map_cons, ← List.map_append] at hs
      exact Tree.starPlaces_of_not_lacksStar (Tree.lacksStar_of_written hop _) _ ▸ hs
  | @adjacent c p q k left hj _ ih ih' =>
      have ho : Ordered (p.tokens ++ q.tokens) := ho
      obtain ⟨us, hu⟩ := Phrase.exists_tokens_eq (joins_ne_end hj)
      have left' := ih ho.left
      have right := ih' ho.right
      rw [hu] at right ho
      have hs := left'.append (right.star ho.right) ho
      have hx : (Phrase.product p none q).tree.starPlaces =
          p.tree.starPlaces ++ q.first.position.offset :: q.tree.starPlaces := by
        show Tree.starPlaces (.binary (between q.first) p.tree q.tree) = _
        rw [Tree.starPlaces, left.lacksStar hj]
        rfl
      have ht : (Phrase.product p none q).tokens = p.tokens ++ q.first :: us :=
        congrArg (p.tokens ++ ·) hu
      have hw : (Phrase.product p none q).starred.tokens.map Token.anywhere =
          p.starred.tokens.map Token.anywhere ++ .star :: q.starred.tokens.map Token.anywhere :=
        List.map_append
      rwa [hx, ht, hw]
  | @applied c p q k _ hb _ _ ih ih' =>
      have ho : Ordered (p.tokens ++ q.tokens) := ho
      have hs := (ih ho.left).append (ih' ho.right) ho
      rw [← List.map_append] at hs
      exact Tree.starPlaces_of_not_lacksStar (Tree.lacksStar_of_bareName _ hb) _ ▸ hs
  | parens _ _ _ ih | bars _ _ _ ih =>
      have hs := ((ih ho.tail.left).concat ho.tail).cons ho
      rw [← List.map_append] at hs
      exact hs
  | sign _ _ ih => exact (ih ho.tail).cons ho
  | operand | missing => exact .none _

section Value

variable {σ : Symbols}

theorem function?_starred (p : Phrase) : σ.function? p.starred.tree = σ.function? p.tree := by
  induction p with
  | parens _ _ _ ih => exact ih
  | operand | bars | sign | applied | power | product | sum => rfl

theorem Fits.eval_starred (h : Fits spare c lvl p k) : σ.eval p.starred.tree = σ.eval p.tree := by
  induction h with
  | term _ ih | power _ ih | application _ ih | factor _ _ ih | parens _ _ _ ih => exact ih
  | @sum c p op q k _ _ _ ih ih' | @raised c p op q k _ _ _ ih ih'
    | @product c p op q k _ _ _ ih ih' => exact eval_binary_congr op ih ih' (function?_starred p)
  | @adjacent c p q k left hj _ ih ih' =>
      have hf : σ.function? p.tree = none := by simp [Symbols.function?, left.not_bareName hj]
      exact (eval_binary_congr .star ih ih' (function?_starred p)).trans
        (eval_star (kind_between q.first) hf)
  | @applied c p q k _ _ _ _ ih ih' =>
      rw [Phrase.starred, Phrase.tree, Phrase.first_starred]
      exact eval_binary_congr _ ih ih' (function?_starred p)
  | bars _ _ _ ih | sign _ _ ih =>
      rw [Phrase.starred, Phrase.tree, Phrase.tree, Symbols.eval, Symbols.eval, ih]
  | operand | missing => rfl

end Value

section Heads

variable {m : Strictness} {text : String} {rest : List Token}

theorem Phrase.Heads.ordered (hp : p.Heads m (.ofString text) rest) : Ordered (p.tokens ++ rest) :=
  hp.tokens ▸ Ordered.ofString text

theorem Phrase.Heads.stars (hp : p.Heads m (.ofString text) rest) :
    Stars p.tree.starPlaces (Scan.ofString text).tokens
      ((p.starred.tokens ++ rest).map Token.anywhere) := by
  rw [hp.tokens, List.map_append]
  exact (hp.fits.stars hp.ordered.left).concat hp.ordered

theorem Phrase.Heads.starred (hp : p.Heads m (.ofString text) rest) :
    p.starred.Heads m ⟨p.starred.tokens ++ rest, (Scan.ofString text).stop⟩ rest :=
  ⟨hp.fits.starred, rfl, hp.closes, hp.all⟩

end Heads

end Parser

open Reckon.Parser

variable {o : Options} {text : String} {t : Tree} {p : Phrase} {rest : List Token}

theorem exists_parse_withStars (hp : p.Heads o.strictness (.ofString text) rest)
    (ha : p.Admitted o 0) (hne : (Scan.ofString text).tokens ≠ []) :
    ∃ u, parse o (.ofString (withStars p.tree.starPlaces text)) = .ok u ∧
      u.anywhere = p.starred.tree.anywhere := by
  have ha : p.starred.Admitted o 0 := by
    rw [Phrase.admitted_zero, hp.fits.tree_starred hp.ordered.left, Tree.height_starred,
      Phrase.nesting_starred]
    exact p.admitted_zero.1 ha
  have hn : p.starred.tokens ++ rest ≠ [] := fun he =>
    hp.stars.ne_nil hne (congrArg (List.map Token.anywhere) he)
  exact exists_parse_of_heads hp.starred ha hn
    ((words_withStars hp.stars.atTokens).trans hp.stars.words)

theorem anywhere_finish (scan : Scan) :
    (Tree.leaf scan.finish).anywhere = .leaf (.word .endOfInput "") := rfl

/-- With the stars it lacks, a text has the tree with the same stars. No name is called there, so
the value is the same whatever the names stand for. -/
theorem stars_keep_tree_and_value (o : Options) (text : String) (t : Tree)
    (h : parse o (.ofString text) = .ok t) :
    ∃ u, parse o (.ofString (withStars t.starPlaces text)) = .ok u ∧
      u.anywhere = t.starred.anywhere ∧
      ∀ σ : Symbols, (σ.eval u).mapError EvalError.anywhere =
        (σ.eval t).mapError EvalError.anywhere := by
  by_cases hne : (Scan.ofString text).tokens = []
  · rw [parse_nil hne] at h
    cases h
    have hw : words (withStars [] text) = [] := by
      rw [words_withStars (by simp), hne, List.flatMap_nil]
    have hx : (Tree.leaf (Scan.ofString text).finish).starPlaces = [] := rfl
    have he := (anywhere_finish (.ofString (withStars [] text))).trans
      (anywhere_finish (.ofString text)).symm
    rw [hx]
    refine ⟨_, parse_of_words_eq_nil hw, he, fun σ => ?_⟩
    rw [← eval_anywhere, he, eval_anywhere]
  · obtain ⟨p, rest, hp, ha, rfl⟩ := (parse_eq_ok_iff_heads (Scan.ne_end_of_mem text) hne).1 h
    obtain ⟨u, hu, he⟩ := exists_parse_withStars hp ha hne
    refine ⟨u, hu, by rw [he, hp.fits.tree_starred hp.ordered.left], fun σ => ?_⟩
    rw [← eval_anywhere, he, eval_anywhere, hp.fits.eval_starred]

theorem stars_around_call :
    ∃ t u, parse ⟨.lenient, 9⟩ (.ofString "2x(3)(4") = .ok t ∧
      parse ⟨.lenient, 9⟩ (.ofString "2*x(3)*(4") = .ok u ∧ u.anywhere = t.starred.anywhere := by
  obtain ⟨t, h, hw⟩ : ∃ t, parse ⟨.lenient, 9⟩ (.ofString "2x(3)(4") = .ok t ∧
      withStars t.starPlaces "2x(3)(4" = "2*x(3)*(4" :=
    ⟨.binary ⟨.times, "", 0, ⟨5, 1, 6⟩⟩
      (.binary ⟨.juxtaposition, "", 0, ⟨1, 1, 2⟩⟩ (.leaf ⟨.integer, "2", 1, ⟨0, 1, 1⟩⟩)
        (.binary ⟨.juxtaposition, "", 0, ⟨2, 1, 3⟩⟩ (.leaf ⟨.identifier, "x", 1, ⟨1, 1, 2⟩⟩)
          (.leaf ⟨.integer, "3", 1, ⟨3, 1, 4⟩⟩)))
      (.leaf ⟨.integer, "4", 1, ⟨6, 1, 7⟩⟩), by decide +kernel, by decide +kernel⟩
  obtain ⟨u, hu, he, -⟩ := stars_keep_tree_and_value _ _ t h
  rw [hw] at hu
  exact ⟨t, u, h, hu, he⟩

end Reckon
