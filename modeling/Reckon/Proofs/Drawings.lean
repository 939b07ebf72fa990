import Mathlib.Data.List.Forall2
import Mathlib.Data.List.Nodup
import Reckon.Proofs.Rewording
import Reckon.Tree.Drawing

namespace Reckon

section Cuts

variable {α : Type} {P : α → Bool} {a b c d : List α}

theorem append_inj_of_cut (ha : ∀ x ∈ a, P x = true) (hb : ∀ x ∈ b, P x = true)
    (hc : ∀ x ∈ c.head?, P x = false) (hd : ∀ x ∈ d.head?, P x = false) (h : a ++ c = b ++ d) :
    a = b ∧ c = d := by
  have front {xs ys : List α} (hx : ∀ x ∈ xs, P x = true) (hy : ∀ x ∈ ys.head?, P x = false) :
      (xs ++ ys).takeWhile P = xs := by
    rw [List.takeWhile_append_of_pos hx]
    cases ys with
    | nil => exact List.append_nil xs
    | cons y ys => rw [List.takeWhile_cons_of_neg (by simp [hy y rfl]), List.append_nil]
  have he : a = b := by rw [← front ha hc, h, front hb hd]
  exact ⟨he, List.append_cancel_left (he ▸ h)⟩

end Cuts

section Display

variable {t u : Token}

namespace Kind

def all : List Kind :=
  [plus, minus, times, divide, power, bar, ampersand, percent, leftParen, rightParen, integer,
    float, identifier, endOfInput, juxtaposition, unclassified]

theorem mem_all (k : Kind) : k ∈ all := by
  cases k <;> decide

theorem name_inj {k k' : Kind} (h : k.name = k'.name) : k = k' :=
  List.inj_on_of_nodup_map (l := all) (by decide) (mem_all k) (mem_all k') h

theorem name_plain (k : Kind) : ∀ c ∈ k.name.toList, c ≠ ':' ∧ c ≠ '\n' := by
  have h : k.name.toList.all (fun c => c != ':' && c != '\n') = true := by
    cases k <;> decide
  simpa [List.all_eq_true] using h

end Kind

namespace Token

def shown (t : Token) : List Char :=
  if t.lexeme.isEmpty then [] else ':' :: ' ' :: t.lexeme.toList

theorem toList_display (t : Token) :
    t.display.toList = '(' :: (t.kind.name.toList ++ t.shown ++ [')']) := by
  rw [display, shown]
  split <;> simp [String.toList_append]

theorem shown_inj (h : t.shown = u.shown) : t.lexeme = u.lexeme := by
  unfold shown at h
  split at h <;> split at h
  all_goals simp_all [String.toList_inj]

theorem display_inj (h : t.display = u.display) : t.anywhere = u.anywhere := by
  have h := congrArg String.toList h
  rw [toList_display, toList_display, List.cons_inj_right] at h
  have hc (t : Token) : ∀ c ∈ t.shown.head?, (c != ':') = false := by
    unfold shown
    split <;> simp
  have hn (t : Token) : ∀ c ∈ t.kind.name.toList, (c != ':') = true := fun c hc =>
    bne_iff_ne.2 (t.kind.name_plain c hc).1
  obtain ⟨hk, hl⟩ := append_inj_of_cut (hn t) (hn u) (hc t) (hc u) (List.append_cancel_right h)
  rw [anywhere, anywhere, Kind.name_inj (String.toList_inj.1 hk), shown_inj hl]

theorem display_anywhere (t : Token) : t.anywhere.display = t.display := rfl

theorem lineFeed_not_mem_display (h : '\n' ∉ t.lexeme.toList) : '\n' ∉ t.display.toList := by
  have hn : '\n' ∉ t.kind.name.toList := fun hm => (t.kind.name_plain _ hm).2 rfl
  rw [toList_display, shown]
  split <;> simp [hn, h]

end Token

end Display

namespace Tree

section Hang

variable {ls ls' xs xs' ys ys' : List String} {head side : String}

theorem hang_inj (h : hang head side ls = hang head side ls') : ls = ls' := by
  have hs : Function.Injective fun line : String => side ++ line := fun _ _ =>
    (String.append_right_inj side).1
  cases ls with
  | nil =>
      cases ls' with
      | nil => rfl
      | cons => cases h
  | cons line ls =>
      cases ls' with
      | nil => cases h
      | cons line' ls' =>
          obtain ⟨hl, hr⟩ := List.cons_eq_cons.1 h
          rw [(String.append_right_inj head).1 hl, List.map_injective_iff.2 hs hr]

theorem head_of_mem_hang {c d : Char} (hc : head.toList.head? = some c)
    (hd : side.toList.head? = some d) {line : String} (h : line ∈ hang head side ls) :
    line.toList.head? = some c ∨ line.toList.head? = some d := by
  cases ls with
  | nil => cases h
  | cons l ls =>
      rcases List.mem_cons.1 h with rfl | h
      · rw [String.toList_append, List.head?_append, hc]
        exact .inl rfl
      · obtain ⟨l, -, rfl⟩ := List.mem_map.1 h
        rw [String.toList_append, List.head?_append, hd]
        exact .inr rfl

def hangsLeft (line : String) : Bool :=
  line.toList.head? = some '├' || line.toList.head? = some '│'

theorem hangsLeft_of_mem {line : String} (h : line ∈ hangLeft ls) : hangsLeft line = true := by
  rcases head_of_mem_hang rfl rfl h with h | h <;> rw [hangsLeft, h] <;> rfl

theorem not_hangsLeft_of_mem {line : String} (h : line ∈ hangRight ls) :
    hangsLeft line = false := by
  rcases head_of_mem_hang rfl rfl h with h | h <;> rw [hangsLeft, h] <;> rfl

/-- The lines of two operands are told apart by how they start. -/
theorem hang_append_inj (h : hangLeft xs ++ hangRight ys = hangLeft xs' ++ hangRight ys') :
    xs = xs' ∧ ys = ys' := by
  obtain ⟨hx, hy⟩ := append_inj_of_cut (fun _ => hangsLeft_of_mem) (fun _ => hangsLeft_of_mem)
    (fun _ hl => not_hangsLeft_of_mem (List.mem_of_mem_head? hl))
    (fun _ hl => not_hangsLeft_of_mem (List.mem_of_mem_head? hl)) h
  exact ⟨hang_inj hx, hang_inj hy⟩

theorem lineFeed_not_mem_hang (hh : '\n' ∉ head.toList) (hs : '\n' ∉ side.toList)
    (h : ∀ line ∈ ls, '\n' ∉ line.toList) : ∀ line ∈ hang head side ls, '\n' ∉ line.toList := by
  cases ls with
  | nil => exact h
  | cons l ls =>
      rw [List.forall_mem_cons] at h
      rw [hang, List.forall_mem_cons, List.forall_mem_map]
      refine ⟨?_, fun line hl => ?_⟩
      · rw [String.toList_append, List.mem_append, not_or]
        exact ⟨hh, h.1⟩
      · rw [String.toList_append, List.mem_append, not_or]
        exact ⟨hs, h.2 line hl⟩

theorem lineFeed_not_mem_hangLeft (h : ∀ line ∈ ls, '\n' ∉ line.toList) :
    ∀ line ∈ hangLeft ls, '\n' ∉ line.toList :=
  lineFeed_not_mem_hang (by decide) (by decide) h

theorem lineFeed_not_mem_hangRight (h : ∀ line ∈ ls, '\n' ∉ line.toList) :
    ∀ line ∈ hangRight ls, '\n' ∉ line.toList :=
  lineFeed_not_mem_hang (by decide) (by decide) h

end Hang

def operandLines (t? : Option Tree) : List String := (t?.map lines).getD []

theorem lines_eq (t : Tree) : t.lines =
    t.token.display :: (hangLeft (operandLines t.left?) ++ hangRight (operandLines t.right?)) := by
  cases t with
  | leaf | binary | rightOnly => rfl
  | unary => exact congrArg _ (List.append_nil _).symm

theorem lines_ne_nil (t : Tree) : t.lines ≠ [] := by
  rw [lines_eq]
  exact List.cons_ne_nil _ _

theorem anywhere_eq_iff {t u : Tree} : t.anywhere = u.anywhere ↔
    t.token.anywhere = u.token.anywhere ∧ t.left?.map anywhere = u.left?.map anywhere ∧
      t.right?.map anywhere = u.right?.map anywhere := by
  cases t <;> cases u <;> simp [anywhere, token, left?, right?]

/-- The lines of the tree are those of no other. -/
def Legible (t : Tree) : Prop := ∀ u : Tree, t.lines = u.lines → t.anywhere = u.anywhere

theorem operandLines_inj {t? u? : Option Tree} (ht : ∀ t ∈ t?, t.Legible)
    (h : operandLines t? = operandLines u?) : t?.map anywhere = u?.map anywhere := by
  cases t? with
  | none =>
      cases u? with
      | none => rfl
      | some u => exact absurd h.symm u.lines_ne_nil
  | some t =>
      cases u? with
      | none => exact absurd h t.lines_ne_nil
      | some u => exact congrArg some (ht t rfl u h)

theorem legible_of_operands {t : Tree} (hl : ∀ a ∈ t.left?, a.Legible)
    (hr : ∀ b ∈ t.right?, b.Legible) : t.Legible := by
  intro u h
  rw [lines_eq, lines_eq u] at h
  obtain ⟨ht, h⟩ := List.cons_eq_cons.1 h
  obtain ⟨ha, hb⟩ := hang_append_inj h
  exact anywhere_eq_iff.2 ⟨Token.display_inj ht, operandLines_inj hl ha, operandLines_inj hr hb⟩

theorem legible (t : Tree) : t.Legible := by
  have none : ∀ t ∈ (none : Option Tree), t.Legible := by
    rintro t ⟨⟩
  have some {a : Tree} (h : a.Legible) : ∀ t ∈ some a, t.Legible := by
    rintro t ⟨⟩
    exact h
  induction t with
  | leaf t => exact legible_of_operands none none
  | unary t a ih => exact legible_of_operands (some ih) none
  | binary t a b iha ihb => exact legible_of_operands (some iha) (some ihb)
  | rightOnly t b ih => exact legible_of_operands none (some ih)

theorem lines_anywhere (t : Tree) : t.anywhere.lines = t.lines := by
  induction t with
  | leaf t => rfl
  | unary t a ih => rw [anywhere, lines, lines, ih, t.display_anywhere]
  | binary t a b ih ih' => rw [anywhere, lines, lines, ih, ih', t.display_anywhere]
  | rightOnly t b ih => rw [anywhere, lines, lines, ih, t.display_anywhere]

def OneLine (t : Tree) : Prop := ∀ node ∈ t.preorder, '\n' ∉ node.token.lexeme.toList

theorem OneLine.lineFeed_not_mem {t : Tree} (h : t.OneLine) :
    ∀ line ∈ t.lines, '\n' ∉ line.toList := by
  induction t with
  | leaf t =>
      rw [lines, List.forall_mem_singleton]
      exact Token.lineFeed_not_mem_display (h _ (List.mem_singleton_self _))
  | unary t a ih =>
      rw [OneLine, preorder, List.forall_mem_cons] at h
      rw [lines, List.forall_mem_cons]
      exact ⟨Token.lineFeed_not_mem_display h.1, lineFeed_not_mem_hangLeft (ih h.2)⟩
  | binary t a b iha ihb =>
      rw [OneLine, preorder, List.forall_mem_cons, List.forall_mem_append] at h
      rw [lines, List.forall_mem_cons, List.forall_mem_append]
      exact ⟨Token.lineFeed_not_mem_display h.1, lineFeed_not_mem_hangLeft (iha h.2.1),
        lineFeed_not_mem_hangRight (ihb h.2.2)⟩
  | rightOnly t b ih =>
      rw [OneLine, preorder, List.forall_mem_cons] at h
      rw [lines, List.forall_mem_cons]
      exact ⟨Token.lineFeed_not_mem_display h.1, lineFeed_not_mem_hangRight (ih h.2)⟩

/-- The line of a node: what comes before the display is the way to the node. -/
def EndsIn (line : String) (node : Tree) : Prop := ∃ way, line = way ++ node.token.display

theorem EndsIn.hang {ls : List String} {nodes : List Tree} (h : List.Forall₂ EndsIn ls nodes)
    (head side : String) : List.Forall₂ EndsIn (hang head side ls) nodes := by
  have push (before : String) {line : String} {node : Tree} (h : EndsIn line node) :
      EndsIn (before ++ line) node := by
    obtain ⟨way, rfl⟩ := h
    exact ⟨before ++ way, String.append_assoc.symm⟩
  cases h with
  | nil => exact .nil
  | cons h hs => exact .cons (push head h) (List.forall₂_map_left_iff.2 (hs.imp fun _ _ => push side))

theorem lines_endIn (t : Tree) : List.Forall₂ EndsIn t.lines t.preorder := by
  have first (t : Token) : ∃ way, t.display = way ++ t.display := ⟨"", String.empty_append.symm⟩
  induction t with
  | leaf t => exact .cons (first t) .nil
  | unary t a ih => exact .cons (first t) (EndsIn.hang ih _ _)
  | binary t a b iha ihb =>
      exact .cons (first t) (List.rel_append (EndsIn.hang iha _ _) (EndsIn.hang ihb _ _))
  | rightOnly t b ih => exact .cons (first t) (EndsIn.hang ih _ _)

end Tree

def ended (ls : List String) : String := String.join (ls.map (· ++ "\n"))

theorem toList_ended_cons (line : String) (ls : List String) :
    (ended (line :: ls)).toList = line.toList ++ '\n' :: (ended ls).toList := by
  simp [ended]

theorem ended_cons_ne_nil (line : String) (ls : List String) : ended (line :: ls) ≠ ended [] := by
  intro h
  have h := congrArg String.toList h
  rw [toList_ended_cons] at h
  exact List.append_ne_nil_of_right_ne_nil _ (List.cons_ne_nil _ _) h

theorem ended_cons_inj {line line' : String} {ls ls' : List String} (h : '\n' ∉ line.toList)
    (h' : '\n' ∉ line'.toList) (he : ended (line :: ls) = ended (line' :: ls')) :
    line = line' ∧ ended ls = ended ls' := by
  have plain {line : String} (h : '\n' ∉ line.toList) :
      ∀ c ∈ line.toList, (c != '\n') = true := by
    intro c hc
    rw [bne_iff_ne]
    rintro rfl
    exact h hc
  have he := congrArg String.toList he
  rw [toList_ended_cons, toList_ended_cons] at he
  obtain ⟨hl, hr⟩ := append_inj_of_cut (plain h) (plain h') (by simp) (by simp) he
  exact ⟨String.toList_inj.1 hl, String.toList_inj.1 (List.cons_eq_cons.1 hr).2⟩

theorem ended_inj {ls ls' : List String} (h : ∀ line ∈ ls, '\n' ∉ line.toList)
    (h' : ∀ line ∈ ls', '\n' ∉ line.toList) (he : ended ls = ended ls') : ls = ls' := by
  induction ls generalizing ls' with
  | nil =>
      cases ls' with
      | nil => rfl
      | cons line' ls' => exact absurd he.symm (ended_cons_ne_nil line' ls')
  | cons line ls ih =>
      cases ls' with
      | nil => exact absurd he (ended_cons_ne_nil line ls)
      | cons line' ls' =>
          rw [List.forall_mem_cons] at h h'
          obtain ⟨rfl, hr⟩ := ended_cons_inj h.1 h'.1 he
          rw [ih h.2 h'.2 hr]

/-- A drawing has a line for each node, in which its token comes last. What is drawn alike is the
same tree, and an only operand is seen to be the first or the second. -/
theorem drawing_is_faithful :
    (∀ t : Tree, t.OneLine → ∃ ls : List String, t.draw = String.join (ls.map (· ++ "\n")) ∧
      (∀ line ∈ ls, '\n' ∉ line.toList) ∧ ls.length = t.size ∧
        List.Forall₂ (fun line node => ∃ way, line = way ++ node.token.display) ls t.preorder) ∧
      ∀ t u : Tree, t.OneLine → u.OneLine → (t.draw = u.draw ↔ t.anywhere = u.anywhere) := by
  have plain {t : Tree} (h : t.OneLine) :
      ∀ line ∈ Tree.hangRight t.lines, '\n' ∉ line.toList :=
    Tree.lineFeed_not_mem_hangRight h.lineFeed_not_mem
  refine ⟨fun t h => ⟨_, rfl, plain h, ?_, Tree.EndsIn.hang t.lines_endIn _ _⟩, ?_⟩
  · rw [Tree.hangRight, Tree.length_hang, Tree.length_lines]
  · intro t u ht hu
    constructor
    · exact fun h => t.legible u (Tree.hang_inj (ended_inj (plain ht) (plain hu) h))
    · intro h
      rw [Tree.draw, Tree.draw, ← t.lines_anywhere, ← u.lines_anywhere, h]

theorem drawing_of_only_operand :
    Tree.OneLine (.unary ⟨.minus, "", 0, .start⟩ (.leaf ⟨.identifier, ")└──(", 0, .start⟩)) ∧
      Tree.OneLine
        (.rightOnly ⟨.minus, "", 0, .start⟩ (.leaf ⟨.identifier, ")└──(", 0, .start⟩)) ∧
      Tree.draw (.unary ⟨.minus, "", 0, .start⟩ (.leaf ⟨.identifier, ")└──(", 0, .start⟩)) ≠
        Tree.draw
          (.rightOnly ⟨.minus, "", 0, .start⟩ (.leaf ⟨.identifier, ")└──(", 0, .start⟩)) := by
  have ht : Tree.OneLine
      (.unary ⟨.minus, "", 0, .start⟩ (.leaf ⟨.identifier, ")└──(", 0, .start⟩)) := by
    unfold Tree.OneLine
    decide
  have hu : Tree.OneLine
      (.rightOnly ⟨.minus, "", 0, .start⟩ (.leaf ⟨.identifier, ")└──(", 0, .start⟩)) := by
    unfold Tree.OneLine
    decide
  exact ⟨ht, hu, fun h => absurd ((drawing_is_faithful.2 _ _ ht hu).1 h) (by decide)⟩

end Reckon
