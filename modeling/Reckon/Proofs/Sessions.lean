import Reckon.Console.Session
import Reckon.Proofs.Inputs

namespace Reckon.Console

namespace Arguments

variable (a : Arguments) (e : String)

def options : Options := ⟨if .lenient ∈ a.flags then .lenient else .strict, 256⟩

def table : Symbols := if .extended ∈ a.flags then .extended else .standard

def value : Except Error Value := evaluate a.options a.table e

/-- What a run has to say about one expression. -/
structure Answers (r : Report) : Prop where
  stdout : r.stdout =
    (if .tokens ∈ a.flags then " ".intercalate ((Scan.ofString e).toList.map Token.display) ++ "\n"
      else "") ++
    (match parse a.options (.ofString e) with
      | .ok t => if .tree ∈ a.flags then t.draw else ""
      | .error _ => "") ++
    (match a.value e with
      | .ok v => v.display ++ (if v.kind = .integer then " (integer)\n" else " (float)\n")
      | .error _ => "")
  ok : ∀ v, a.value e = .ok v → r.code = 0 ∧ r.stderr = ""
  error : ∀ fault, a.value e = .error fault → r.code = 1 ∧ r.stderr = fault.message ++ "\n"

theorem ofArguments_eq : Session.ofArguments a =
    ⟨a.table, a.options, decide (.tokens ∈ a.flags), decide (.tree ∈ a.flags)⟩ := by
  simp only [Session.ofArguments, table, options, has, decide_eq_true_eq, Session.mk.injEq,
    true_and, and_true]
  split <;> rfl

theorem answers_answer : a.Answers e ((Session.ofArguments a).answer e) := by
  rw [ofArguments_eq, Session.answer]
  cases hp : parse a.options (.ofString e) with
  | error fault =>
      have hv : a.value e = .error (.syntactic fault) := by rw [value, evaluate, hp]
      refine ⟨?_, fun v h => ?_, fun fault h => ?_⟩
      · simp [hp, hv, Session.failed, Scan.display]
      · cases hv.symm.trans h
      · cases hv.symm.trans h
        exact ⟨rfl, rfl⟩
  | ok t =>
      cases he : a.table.eval t with
      | error fault =>
          have hv : a.value e = .error (.runtime fault) := by simp only [value, evaluate, hp, he]
          refine ⟨?_, fun v h => ?_, fun fault h => ?_⟩
          · simp [hp, he, hv, Session.failed, Scan.display]
          · cases hv.symm.trans h
          · cases hv.symm.trans h
            simp [he, Session.failed]
      | ok v =>
          have hv : a.value e = .ok v := by simp only [value, evaluate, hp, he]
          refine ⟨?_, fun v h => ?_, fun fault h => ?_⟩
          · have hk : " (" ++ (v.kind.name ++ ")\n") =
                if v.kind = .integer then " (integer)\n" else " (float)\n" := by
              cases v.kind <;> rfl
            simp [hp, he, hv, String.append_assoc, hk, Scan.display]
          · simp [he]
          · cases hv.symm.trans h

end Arguments

/-- The expressions that a session takes from its lines, and whether it breaks off at a line that is
no text. -/
inductive Takes : List (List UInt8) → List String → Bool → Prop
  | finish : Takes [] [] false
  | breakOff {line ls} (h : ∀ text, ¬Decodes line text) : Takes (line :: ls) [] true
  | quit {line ls text} (h : Decodes line text) (ht : Trimmed text ":q") :
      Takes (line :: ls) [] false
  | blank {line ls es b text} (h : Decodes line text) (ht : Trimmed text "")
      (later : Takes ls es b) : Takes (line :: ls) es b
  | expression {line ls es b text e} (h : Decodes line text) (ht : Trimmed text e)
      (hq : e ≠ ":q") (hn : e ≠ "") (later : Takes ls es b) : Takes (line :: ls) (e :: es) b

theorem exists_takes (ls : List (List UInt8)) : ∃ es b, Takes ls es b := by
  induction ls with
  | nil => exact ⟨[], false, .finish⟩
  | cons line ls ih =>
      obtain ⟨es, b, h⟩ := ih
      by_cases hd : ∃ text, Decodes line text
      · obtain ⟨text, hd⟩ := hd
        have ht := trimmed_trim text
        by_cases hq : trim text = ":q"
        · exact ⟨[], false, .quit hd (hq ▸ ht)⟩
        · by_cases hn : trim text = ""
          · exact ⟨es, b, .blank hd (hn ▸ ht) h⟩
          · exact ⟨trim text :: es, b, .expression hd ht hq hn h⟩
      · exact ⟨[], true, .breakOff (not_exists.1 hd)⟩

def decodingFault : String :=
  "Failed to read from standard input: stream did not contain valid UTF-8\n"

theorem answerLines_of_takes {ls : List (List UInt8)} {es : List String} {b : Bool} (s : Session)
    (h : Takes ls es b) :
    s.answerLines ls =
      ⟨if b then 1 else 0, String.join (es.map fun e => (s.answer e).stdout),
        String.join (es.map fun e => (s.answer e).stderr) ++ if b then decodingFault else ""⟩ := by
  induction h with
  | finish => rfl
  | @breakOff line ls h =>
      have hd : decode? line = none :=
        Option.eq_none_iff_forall_ne_some.2 fun text ht => h text (decodes_iff.2 ht)
      rw [Session.answerLines, hd]
      rfl
  | quit h ht =>
      rw [Session.answerLines, decodes_iff.1 h]
      simp only [ht.trim_eq, if_true]
      rfl
  | blank h ht _ ih =>
      have hne : "" ≠ ":q" := by decide
      rw [Session.answerLines, decodes_iff.1 h]
      simp only [ht.trim_eq, hne, if_true, if_false]
      exact ih
  | expression h ht hq hn _ ih =>
      rw [Session.answerLines, decodes_iff.1 h]
      simp only [ht.trim_eq, hq, hn, if_false]
      rw [ih, List.map_cons, List.map_cons, String.join_cons, String.join_cons, String.append_assoc]
      rfl

/-- A run answers its expression as evaluation does, and a session writes what runs for the
expressions on its lines write, one after the other, up to the line that quits or is no text. -/
theorem session_is_one_shots (a : Arguments) :
    (∀ e, a.Answers e ((Session.ofArguments a).answer e)) ∧
      ∀ input, (∃ ls es b, IsLines input ls ∧ Takes ls es b) ∧
        ∀ ls es b, IsLines input ls → Takes ls es b →
          (Session.ofArguments a).answerInput input =
            ⟨if b then 1 else 0,
              String.join (es.map fun e => ((Session.ofArguments a).answer e).stdout),
              String.join (es.map fun e => ((Session.ofArguments a).answer e).stderr) ++
                if b then decodingFault else ""⟩ := by
  refine ⟨a.answers_answer, fun input => ⟨?_, ?_⟩⟩
  · obtain ⟨es, b, h⟩ := exists_takes (lines input)
    exact ⟨_, es, b, isLines_lines input, h⟩
  · intro ls es b hl h
    rw [Session.answerInput, isLines_iff.1 hl]
    exact answerLines_of_takes _ h

/-- The last line is no text, and the session does not come to it. -/
theorem session_quits_between_blanks :
    IsLines [50, 112, 105, 13, 10, 9, 10, 227, 128, 128, 58, 113, 32, 10, 255]
        [[50, 112, 105, 13], [9], [227, 128, 128, 58, 113, 32], [255]] ∧
      Takes [[50, 112, 105, 13], [9], [227, 128, 128, 58, 113, 32], [255]] ["2pi"] false ∧
      (Session.ofArguments ⟨[.tree, .lenient], none⟩).answerInput
          [50, 112, 105, 13, 10, 9, 10, 227, 128, 128, 58, 113, 32, 10, 255] =
        ⟨0, ((Session.ofArguments ⟨[.tree, .lenient], none⟩).answer "2pi").stdout,
          ((Session.ofArguments ⟨[.tree, .lenient], none⟩).answer "2pi").stderr⟩ := by
  have hl : IsLines [50, 112, 105, 13, 10, 9, 10, 227, 128, 128, 58, 113, 32, 10, 255]
      [[50, 112, 105, 13], [9], [227, 128, 128, 58, 113, 32], [255]] := isLines_iff.2 (by decide)
  have hd₁ : Decodes [50, 112, 105, 13] "2pi\r" := rfl
  have hd₂ : Decodes [9] "\t" := rfl
  have hd₃ : Decodes [227, 128, 128, 58, 113, 32] "\u3000:q " := rfl
  have ht : Takes [[50, 112, 105, 13], [9], [227, 128, 128, 58, 113, 32], [255]] ["2pi"] false :=
    .expression hd₁ (trimmed_iff.2 (by decide)) (by decide) (by decide)
      (.blank hd₂ (trimmed_iff.2 (by decide)) (.quit hd₃ (trimmed_iff.2 (by decide))))
  have h := ((session_is_one_shots ⟨[.tree, .lenient], none⟩).2 _).2 _ _ _ hl ht
  refine ⟨hl, ht, ?_⟩
  simpa [String.join] using h

end Reckon.Console
