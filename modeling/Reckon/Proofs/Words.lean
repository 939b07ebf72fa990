import Mathlib.Data.List.SplitBy
import Reckon.Proofs.Written

namespace Reckon

namespace Token

def anywhere (t : Token) : Token := ⟨t.kind, t.lexeme, 0, .start⟩

def word (kind : Kind) (lexeme : String) : Token := ⟨kind, lexeme, 0, .start⟩

theorem kind_eq_of_anywhere {t u : Token} (h : t.anywhere = u.anywhere) : t.kind = u.kind := by
  injection h

/-- Read by itself, what the token was written with is just this token. -/
structure IsLexical (t : Token) : Prop where
  run : runs t.lexeme.toList = [t.lexeme.toList]
  kind : Kind.ofRun? t.lexeme.toList = some t.kind

def IsSymbol (t : Token) : Prop :=
  ∃ c, (c, t.kind) ∈ Kind.symbols ∧ t.lexeme = String.singleton c

end Token

def words (text : String) : List Token := (Scan.ofString text).tokens.map Token.anywhere

def wordOfRun? (run : List Char) : Option Token :=
  (Kind.ofRun? run).map fun kind => .word kind (String.ofList run)

theorem map_anywhere_ofRuns (p : Position) (rs : List (List Char)) :
    (Token.ofRuns p rs).map Token.anywhere = rs.filterMap wordOfRun? := by
  induction rs generalizing p with
  | nil => rfl
  | cons run rs ih =>
      rw [Token.ofRuns, List.map_append, ih, List.filterMap_cons, Token.ofRun?, wordOfRun?]
      cases Kind.ofRun? run <;> rfl

theorem words_eq_filterMap (text : String) : words text = (runs text.toList).filterMap wordOfRun? :=
  map_anywhere_ofRuns _ _

/-- No run goes on from the end of one text into the next. -/
def Apart (a b : String) : Prop := ∀ x ∈ a.toList.getLast?, ∀ y ∈ b.toList.head?, joins x y = false

/-- The words of two texts one after the other, if no run goes on from the first into the second. -/
theorem words_append {a b : String} (h : Apart a b) : words (a ++ b) = words a ++ words b := by
  rw [words_eq_filterMap, words_eq_filterMap, words_eq_filterMap, String.toList_append,
    ← List.filterMap_append]
  exact congrArg _ (List.splitBy_append h)

theorem runs_of_append {l : List Char} {rs rs' : List (List Char)} (h : runs l = rs ++ rs') :
    l = rs.flatten ++ rs'.flatten ∧ runs rs.flatten = rs ∧ runs rs'.flatten = rs' := by
  obtain ⟨hl, hn, hc, hj⟩ := List.splitBy_eq_iff.1 h
  rw [List.mem_append, not_or] at hn
  rw [List.forall_mem_append] at hc
  obtain ⟨hj, hj', _⟩ := List.isChain_append.1 hj
  exact ⟨by rw [hl, List.flatten_append], List.splitBy_eq_iff.2 ⟨rfl, hn.1, hc.1, hj⟩,
    List.splitBy_eq_iff.2 ⟨rfl, hn.2, hc.2, hj'⟩⟩

theorem exists_split {text : String} {ts us : List Token} (h : words text = ts ++ us) :
    ∃ a b, text = a ++ b ∧ words a = ts ∧ words b = us := by
  rw [words_eq_filterMap] at h
  obtain ⟨rs, rs', hr, rfl, rfl⟩ := List.filterMap_eq_append_iff.1 h
  obtain ⟨hl, h₁, h₂⟩ := runs_of_append hr
  refine ⟨String.ofList rs.flatten, String.ofList rs'.flatten, ?_, ?_, ?_⟩
  · rw [← String.ofList_append, ← hl, String.ofList_toList]
  · rw [words_eq_filterMap, String.toList_ofList, h₁]
  · rw [words_eq_filterMap, String.toList_ofList, h₂]

theorem Kind.not_joins_of_mem_symbols :
    ∀ s ∈ symbols, s.1.isAlpha = false ∧ isNumeral s.1 = false := by decide

namespace Token

variable {t : Token}

theorem IsLexical.words_lexeme (h : t.IsLexical) : words t.lexeme = [t.anywhere] := by
  rw [words_eq_filterMap, h.run]
  simp [wordOfRun?, h.kind, anywhere, word]

theorem IsLexical.lexeme_ne_empty (h : t.IsLexical) : t.lexeme ≠ "" := by
  intro he
  have hr := h.run
  rw [he] at hr
  cases hr

theorem IsSymbol.isLexical (h : t.IsSymbol) : t.IsLexical := by
  obtain ⟨c, hc, ht⟩ := h
  obtain ⟨ha, hn⟩ := Kind.not_joins_of_mem_symbols _ hc
  constructor
  · rw [ht, String.toList_singleton]
    exact List.splitBy_of_isChain (List.cons_ne_nil c []) (List.isChain_singleton c)
  · simp [ht, Kind.ofRun?, ha, hn, Kind.ofSymbol_eq_some_iff.2 hc]

theorem IsSymbol.apart_left (h : t.IsSymbol) (a : String) : Apart a t.lexeme := by
  obtain ⟨c, hc, ht⟩ := h
  obtain ⟨ha, hn⟩ := Kind.not_joins_of_mem_symbols _ hc
  intro x _ y hy
  simp only [ht, String.toList_singleton, List.head?_cons, Option.mem_def, Option.some.injEq] at hy
  simp [joins, ← hy, ha, hn]

theorem IsSymbol.apart_right (h : t.IsSymbol) (a b : String) : Apart (a ++ t.lexeme) b := by
  obtain ⟨c, hc, ht⟩ := h
  obtain ⟨ha, hn⟩ := Kind.not_joins_of_mem_symbols _ hc
  intro x hx y _
  simp only [ht, String.toList_append, String.toList_singleton, List.getLast?_append,
    List.getLast?_singleton, Option.some_or, Option.mem_def, Option.some.injEq] at hx
  simp [joins, ← hx, ha, hn]

end Token

theorem words_symbol {t : Token} (h : t.IsSymbol) (a b : String) :
    words (a ++ t.lexeme ++ b) = words a ++ t.anywhere :: words b := by
  rw [words_append (h.apart_right a b), words_append (h.apart_left a), h.isLexical.words_lexeme,
    List.append_assoc, List.singleton_append]

theorem Token.isLexical_of_mem_ofRuns {p : Position} {rs : List (List Char)} {t : Token}
    (hr : ∀ run ∈ rs, runs run = [run]) (h : t ∈ Token.ofRuns p rs) : t.IsLexical := by
  induction rs generalizing p with
  | nil => cases h
  | cons run rs ih =>
      rw [ofRuns, List.mem_append] at h
      rcases h with h | h
      · obtain ⟨k, hk, rfl⟩ := Option.map_eq_some_iff.1 (Option.mem_toList.1 h)
        exact ⟨by simpa using hr run List.mem_cons_self, by simpa using hk⟩
      · exact ih (fun run hrun => hr run (List.mem_cons_of_mem _ hrun)) h

theorem Scan.isLexical_of_mem {text : String} {t : Token} (h : t ∈ (Scan.ofString text).tokens) :
    t.IsLexical :=
  Token.isLexical_of_mem_ofRuns (fun _ hr => List.splitBy_of_isChain
    (List.ne_nil_of_mem_splitBy hr) (List.isChain_of_mem_splitBy hr)) h

theorem Token.IsLexical.isSymbol {t : Token} (h : t.IsLexical) (hi : t.kind ≠ .identifier)
    (hn : t.kind ≠ .integer) (hf : t.kind ≠ .float) : t.IsSymbol := by
  have hk := h.kind
  have hr := h.run
  cases hl : t.lexeme.toList with
  | nil =>
      rw [hl] at hk
      cases hk
  | cons c cs =>
      have hc : (c, t.kind) ∈ Kind.symbols := by
        rw [hl, Kind.ofRun?] at hk
        split at hk
        · exact absurd (Option.some.inj hk).symm hi
        · split at hk
          · split at hk
            · exact absurd (Option.some.inj hk).symm hf
            · exact absurd (Option.some.inj hk).symm hn
          · exact Kind.ofSymbol_eq_some_iff.1 hk
      refine ⟨c, hc, String.toList_inj.1 ?_⟩
      obtain ⟨ha, hn⟩ := Kind.not_joins_of_mem_symbols _ hc
      cases cs with
      | nil => rw [hl, String.toList_singleton]
      | cons c' cs =>
          rw [hl] at hr
          have hm : c :: c' :: cs ∈ runs (c :: c' :: cs) := by
            rw [hr]
            exact List.mem_singleton_self _
          have hj := (List.isChain_cons_cons.1 (List.isChain_of_mem_splitBy hm)).1
          simp [joins, ha, hn] at hj

def inParens (text : String) : String := "(" ++ text ++ ")"

theorem Token.isSymbol_leftParen : (word .leftParen "(").IsSymbol := ⟨'(', by decide, rfl⟩

theorem Token.isSymbol_rightParen : (word .rightParen ")").IsSymbol := ⟨')', by decide, rfl⟩

theorem Token.isSymbol_bar : (word .bar "|").IsSymbol := ⟨'|', by decide, rfl⟩

theorem words_symbol_left {t : Token} (h : t.IsSymbol) (b : String) :
    words (t.lexeme ++ b) = t.anywhere :: words b := by
  have hw := words_symbol h "" b
  rwa [String.empty_append] at hw

theorem inParens_eq (text : String) : inParens text = "(" ++ (text ++ ")") := String.append_assoc

theorem words_inParens (text : String) :
    words (inParens text) = .word .leftParen "(" :: (words text ++ [.word .rightParen ")"]) := by
  have hl := words_symbol_left Token.isSymbol_leftParen (text ++ ")")
  have hr := words_symbol Token.isSymbol_rightParen text ""
  rw [String.append_empty] at hr
  rw [inParens_eq]
  exact hl.trans (congrArg _ hr)

theorem words_append_inParens (a text : String) :
    words (a ++ inParens text) = words a ++ words (inParens text) := by
  have h := words_symbol Token.isSymbol_leftParen a (text ++ ")")
  have hl := words_symbol_left Token.isSymbol_leftParen (text ++ ")")
  rw [String.append_assoc] at h
  rw [inParens_eq]
  exact h.trans (congrArg _ hl.symm)

def IsName (name : String) : Prop := name.toList ≠ [] ∧ ∀ c ∈ name.toList, c.isAlpha = true

theorem IsName.isLexical {name : String} (h : IsName name) :
    (Token.word .identifier name).IsLexical := by
  obtain ⟨hne, ha⟩ := h
  constructor
  · refine List.splitBy_of_isChain hne (List.Pairwise.isChain ?_)
    refine List.pairwise_iff_forall_sublist.2 ?_
    intro x y hs
    have hx := ha x (hs.subset (by simp))
    have hy := ha y (hs.subset (by simp))
    simp [joins, hx, hy]
  · show Kind.ofRun? name.toList = some .identifier
    cases hn : name.toList with
    | nil => exact absurd hn hne
    | cons c cs => rw [Kind.ofRun?, if_pos (ha c (by simp [hn]))]

end Reckon
