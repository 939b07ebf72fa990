import Reckon.Proofs.Adjacency
import Reckon.Proofs.Segmentation

namespace Reckon

/-- The characters from a place on, in front of each as many a `*` as its byte is named. -/
def insertStars (places : List Nat) (p : Position) : List Char → List Char
  | [] => List.replicate (places.count p.offset) '*'
  | c :: cs =>
    List.replicate (places.count p.offset) '*' ++ c :: insertStars places (p.after c) cs

def withStars (places : List Nat) (text : String) : String :=
  String.ofList (insertStars places .start text.toList)

def starredWord (places : List Nat) (t : Token) : List Token :=
  List.replicate (places.count t.position.offset) .star ++ [t.anywhere]

section Text

variable {places : List Nat} {p : Position} {c : Char} {cs rest : List Char}

theorem insertStars_append (h : ∀ x ∈ places, p.offset ≤ x → (p.advance cs).offset ≤ x) :
    insertStars places p (cs ++ rest) = cs ++ insertStars places (p.advance cs) rest := by
  induction cs generalizing p with
  | nil => rfl
  | cons c cs ih =>
      have hn : p.offset ∉ places := fun hm =>
        Nat.not_le.2 (p.offset_lt_advance c cs) (h _ hm (Nat.le_refl _))
      have hle : p.offset ≤ (p.after c).offset := by
        rw [Position.offset_after]
        exact Nat.le_add_right _ _
      rw [List.cons_append, insertStars, List.count_eq_zero.2 hn, List.replicate_zero,
        List.nil_append, ih fun x hx hl => h x hx (Nat.le_trans hle hl)]
      rfl

theorem insertStars_cons_append
    (h : ∀ x ∈ places, p.offset < x → (p.advance (c :: cs)).offset ≤ x) :
    insertStars places p (c :: cs ++ rest) = List.replicate (places.count p.offset) '*' ++
      (c :: cs ++ insertStars places (p.advance (c :: cs)) rest) := by
  have hlt : p.offset < (p.after c).offset := p.offset_lt_advance c []
  have ht : insertStars places (p.after c) (cs ++ rest) = _ :=
    insertStars_append fun x hx hl => h x hx (Nat.lt_of_lt_of_le hlt hl)
  rw [List.cons_append, insertStars, ht]
  rfl

theorem head_insertStars (h : c ∈ (insertStars places p cs).head?) : c = '*' ∨ c ∈ cs.head? := by
  cases hn : places.count p.offset with
  | zero =>
      cases cs with
      | nil => simp [insertStars, hn] at h
      | cons d cs => exact .inr (by simpa [insertStars, hn] using h)
  | succ n =>
      cases cs <;> exact .inl (by simpa [insertStars, hn, List.replicate_succ, eq_comm] using h)

theorem words_replicate_star (n : Nat) (text : String) :
    words (String.ofList (List.replicate n '*') ++ text) = List.replicate n .star ++ words text := by
  induction n with
  | zero => rw [List.replicate_zero, String.ofList_nil, String.empty_append]; rfl
  | succ n ih =>
      have ht : String.ofList (List.replicate (n + 1) '*') ++ text =
          Token.star.lexeme ++ (String.ofList (List.replicate n '*') ++ text) := by
        rw [List.replicate_succ, ← String.append_assoc]
        exact congrArg (· ++ text) (String.ofList_append : String.ofList (['*'] ++ _) = _)
      rw [ht, words_symbol_left Token.isSymbol_star, ih]
      rfl

theorem ofRuns_starredWord_of_run {run : List Char} (hn : Kind.ofRun? run = none →
    p.offset ∉ places) : (Token.ofRun? p run).toList.flatMap (starredWord places) =
      List.replicate (places.count p.offset) .star ++ (wordOfRun? run).toList := by
  rw [Token.ofRun?, wordOfRun?]
  cases hk : Kind.ofRun? run with
  | none => simp [List.count_eq_zero.2 (hn hk)]
  | some k => simp [starredWord, Token.anywhere, Token.word]

/-- From a place on, all that is named are the places of tokens. -/
def AtTokens (places : List Nat) (p : Position) (rs : List (List Char)) : Prop :=
  ∀ x ∈ places, p.offset ≤ x → ∃ t ∈ Token.ofRuns p rs, t.position.offset = x

section AtTokens

variable {rs : List (List Char)}

theorem AtTokens.later (h : AtTokens places p (cs :: rs)) : ∀ x ∈ places, p.offset < x →
    ∃ t ∈ Token.ofRuns (p.advance cs) rs, t.position.offset = x := by
  intro x hx hl
  obtain ⟨t, ht, rfl⟩ := h x hx (Nat.le_of_lt hl)
  rw [Token.ofRuns, List.mem_append, Option.mem_toList] at ht
  rcases ht with ht | ht
  · obtain ⟨k, -, rfl⟩ := Option.map_eq_some_iff.1 ht
    exact absurd hl (Nat.lt_irrefl _)
  · exact ⟨t, ht, rfl⟩

theorem AtTokens.tail (h : AtTokens places p ((c :: cs) :: rs)) :
    AtTokens places (p.advance (c :: cs)) rs :=
  fun x hx hl => h.later x hx (Nat.lt_of_lt_of_le (p.offset_lt_advance c cs) hl)

theorem AtTokens.not_inside (h : AtTokens places p (cs :: rs)) :
    ∀ x ∈ places, p.offset < x → (p.advance cs).offset ≤ x := by
  intro x hx hl
  obtain ⟨t, ht, rfl⟩ := h.later x hx hl
  exact Token.le_offset_of_mem_ofRuns ht

theorem AtTokens.not_at_blank (h : AtTokens places p ((c :: cs) :: rs))
    (hk : Kind.ofRun? (c :: cs) = none) : p.offset ∉ places := by
  intro hm
  obtain ⟨t, ht, he⟩ := h _ hm (Nat.le_refl _)
  rw [Token.ofRuns, Token.ofRun?, hk] at ht
  exact absurd (he ▸ Token.le_offset_of_mem_ofRuns ht) (Nat.not_le.2 (p.offset_lt_advance c cs))

theorem apart_insertStars {run after : List Char} (h : IsRun [] run after) :
    Apart (String.ofList run) (String.ofList (insertStars places p after)) := by
  intro x hx y hy
  rw [String.toList_ofList] at hx hy
  rcases head_insertStars hy with rfl | hy
  · simp [joins, isNumeral]
  · exact h.right x hx y hy

theorem words_insertStars (hr : runs rs.flatten = rs) (hp : AtTokens places p rs) :
    words (String.ofList (insertStars places p rs.flatten)) =
      (Token.ofRuns p rs).flatMap (starredWord places) := by
  induction rs generalizing p with
  | nil =>
      have hn : p.offset ∉ places := fun hm => by
        obtain ⟨t, ht, -⟩ := hp _ hm (Nat.le_refl _)
        cases ht
      rw [List.flatten_nil, insertStars, List.count_eq_zero.2 hn]
      rfl
  | cons run rs ih =>
      -- only in front of a run can a star stand, and none joins the run before
      have hc : runs (run :: rs).flatten = [] ++ run :: rs := hr
      have hi := (isRun_of_runs hc).2
      obtain ⟨c, cs, rfl⟩ := List.exists_cons_of_ne_nil hi.ne_nil
      have hc : runs ((c :: cs) :: rs).flatten = [c :: cs] ++ rs := hr
      have hrs := (runs_of_append hc).2.2
      calc words (String.ofList (insertStars places p (c :: cs ++ rs.flatten)))
          _ = words (String.ofList (List.replicate (places.count p.offset) '*') ++
                (String.ofList (c :: cs) ++
                  String.ofList (insertStars places (p.advance (c :: cs)) rs.flatten))) := by
            rw [insertStars_cons_append hp.not_inside, String.ofList_append, String.ofList_append]
          _ = List.replicate (places.count p.offset) .star ++ ((wordOfRun? (c :: cs)).toList ++
                (Token.ofRuns (p.advance (c :: cs)) rs).flatMap (starredWord places)) := by
            rw [words_replicate_star, words_append (apart_insertStars hi), words_run hi,
              ih hrs hp.tail]
          _ = (Token.ofRuns p ((c :: cs) :: rs)).flatMap (starredWord places) := by
            rw [Token.ofRuns, List.flatMap_append, ofRuns_starredWord_of_run hp.not_at_blank,
              List.append_assoc]

end AtTokens

/-- A `*` joins nothing, so it may even stand in front of a run that nothing separates from the one
before. -/
theorem words_withStars {text : String}
    (h : ∀ x ∈ places, ∃ t ∈ (Scan.ofString text).tokens, t.position.offset = x) :
    words (withStars places text) = (Scan.ofString text).tokens.flatMap (starredWord places) := by
  have hf : (runs text.toList).flatten = text.toList := List.flatten_splitBy joins text.toList
  have hw : words (String.ofList (insertStars places .start (runs text.toList).flatten)) =
      (Scan.ofString text).tokens.flatMap (starredWord places) :=
    words_insertStars (by rw [hf]) fun x hx _ => h x hx
  rwa [hf] at hw

end Text

structure Ordered (ts : List Token) : Prop where
  before : ts.Pairwise fun t u => t.position.offset < u.position.offset
  lexeme : ∀ t ∈ ts, t.lexeme ≠ ""

namespace Ordered

variable {t : Token} {ts us : List Token}

theorem ofString (text : String) : Ordered (Scan.ofString text).tokens :=
  ⟨Scan.pairwise_before text, fun _ ht => (Scan.isLexical_of_mem ht).lexeme_ne_empty⟩

theorem sublist (h : Ordered us) (hs : ts.Sublist us) : Ordered ts :=
  ⟨h.before.sublist hs, fun t ht => h.lexeme t (hs.subset ht)⟩

theorem left (h : Ordered (ts ++ us)) : Ordered ts := h.sublist (List.sublist_append_left ts us)

theorem right (h : Ordered (ts ++ us)) : Ordered us := h.sublist (List.sublist_append_right ts us)

theorem tail (h : Ordered (t :: ts)) : Ordered ts := h.sublist (List.sublist_cons_self t ts)

end Ordered

/-- The places are those of tokens, and with stars there the words are `us`. -/
structure Stars (places : List Nat) (ts us : List Token) : Prop where
  atTokens : ∀ x ∈ places, ∃ t ∈ ts, t.position.offset = x
  words : ts.flatMap (starredWord places) = us

namespace Stars

variable {xs ys : List Nat} {ts ts' us us' : List Token} {t : Token}

theorem none (ts : List Token) : Stars [] ts (ts.map Token.anywhere) where
  atTokens := nofun
  words := List.map_eq_flatMap.symm

theorem flatMap_congr (h : ∀ t ∈ ts, xs.count t.position.offset = ys.count t.position.offset) :
    ts.flatMap (starredWord xs) = ts.flatMap (starredWord ys) :=
  List.flatMap_congr fun t ht => by rw [starredWord, starredWord, h t ht]

theorem append (h : Stars xs ts us) (h' : Stars ys ts' us') (ho : Ordered (ts ++ ts')) :
    Stars (xs ++ ys) (ts ++ ts') (us ++ us') := by
  have hb := (List.pairwise_append.1 ho.before).2.2
  have hx : ∀ t ∈ ts, (xs ++ ys).count t.position.offset = xs.count t.position.offset := by
    intro t ht
    have hn : t.position.offset ∉ ys := fun hm => by
      obtain ⟨t', ht', he⟩ := h'.atTokens _ hm
      exact Nat.ne_of_gt (hb t ht t' ht') he
    rw [List.count_append, List.count_eq_zero.2 hn, Nat.add_zero]
  have hy : ∀ t' ∈ ts', (xs ++ ys).count t'.position.offset = ys.count t'.position.offset := by
    intro t' ht'
    have hn : t'.position.offset ∉ xs := fun hm => by
      obtain ⟨t, ht, he⟩ := h.atTokens _ hm
      exact Nat.ne_of_lt (hb t ht t' ht') he
    rw [List.count_append, List.count_eq_zero.2 hn, Nat.zero_add]
  constructor
  · intro x hx
    rcases List.mem_append.1 hx with hx | hx
    · obtain ⟨t, ht, he⟩ := h.atTokens x hx
      exact ⟨t, List.mem_append_left _ ht, he⟩
    · obtain ⟨t, ht, he⟩ := h'.atTokens x hx
      exact ⟨t, List.mem_append_right _ ht, he⟩
  · rw [List.flatMap_append, flatMap_congr hx, flatMap_congr hy, h.words, h'.words]

theorem ne_nil (h : Stars xs ts us) (hn : ts ≠ []) : us ≠ [] := by
  obtain ⟨t, ts, rfl⟩ := List.exists_cons_of_ne_nil hn
  rw [← h.words, List.flatMap_cons, starredWord]
  simp

theorem concat (h : Stars xs ts us) (ho : Ordered (ts ++ ts')) :
    Stars xs (ts ++ ts') (us ++ ts'.map Token.anywhere) := by
  have hs := h.append (none ts') ho
  rwa [List.append_nil] at hs

theorem cons (h : Stars xs ts us) (ho : Ordered (t :: ts)) :
    Stars xs (t :: ts) (t.anywhere :: us) :=
  (none [t]).append h ho

theorem star (h : Stars xs (t :: ts) us) (ho : Ordered (t :: ts)) :
    Stars (t.position.offset :: xs) (t :: ts) (.star :: us) := by
  have hb := (List.pairwise_cons.1 ho.before).1
  have hx : ∀ u ∈ ts, (t.position.offset :: xs).count u.position.offset =
      xs.count u.position.offset := by
    intro u hu
    exact List.count_cons_of_ne (Nat.ne_of_lt (hb u hu))
  constructor
  · intro x hx
    rcases List.mem_cons.1 hx with rfl | hx
    · exact ⟨t, List.mem_cons_self, rfl⟩
    · exact h.atTokens x hx
  · rw [← h.words, List.flatMap_cons, flatMap_congr hx, List.flatMap_cons, starredWord,
      List.count_cons_self, List.replicate_succ]
    rfl

end Stars

end Reckon
