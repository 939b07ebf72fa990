import Reckon.Proofs.ByteOrder
import Reckon.Symbols.Builtin

namespace Reckon

namespace Symbols

variable (s : Symbols) {s' : Symbols} {name : String} {m : Meaning} {d : String × Meaning}
  {before after ds ds' : List (String × Meaning)}

theorem defineAll_append (ds ds' : List (String × Meaning)) :
    s.defineAll (ds ++ ds') = (s.defineAll ds).defineAll ds' := List.foldl_append

theorem get?_defineAll_of_last (h : ∀ d ∈ after, d.1 ≠ name) :
    (s.defineAll (before ++ (name, m) :: after)).get? name = some m := by
  rw [defineAll_append]
  calc (((s.defineAll before).define name m).defineAll after).get? name
      _ = ((s.defineAll before).define name m).get? name := get?_defineAll_of_forall_ne _ h
      _ = some m := by rw [get?_define, if_pos rfl]

theorem get?_defineAll_of_mem (hn : (ds.map Prod.fst).Nodup) (h : d ∈ ds) :
    (s.defineAll ds).get? d.1 = some d.2 := by
  obtain ⟨before, after, rfl⟩ := List.append_of_mem h
  rw [List.map_append, List.map_cons, List.nodup_append, List.nodup_cons] at hn
  refine s.get?_defineAll_of_last fun d' hd' he => hn.2.1.1 ?_
  exact he ▸ List.mem_map_of_mem hd'

theorem get?_defineAll_of_perm (hp : ds.Perm ds') (hn : (ds.map Prod.fst).Nodup) (name : String) :
    (s.defineAll ds).get? name = (s.defineAll ds').get? name := by
  by_cases h : ∃ d ∈ ds, d.1 = name
  · obtain ⟨d, hd, rfl⟩ := h
    rw [s.get?_defineAll_of_mem hn hd,
      s.get?_defineAll_of_mem ((hp.map Prod.fst).nodup_iff.1 hn) (hp.mem_iff.1 hd)]
  · have hne : ∀ d ∈ ds, d.1 ≠ name := fun d hd he => h ⟨d, hd, he⟩
    rw [s.get?_defineAll_of_forall_ne hne,
      s.get?_defineAll_of_forall_ne fun d hd => hne d (hp.mem_iff.2 hd)]

theorem contains_eq_isSome (name : String) : s.contains name = (s.get? name).isSome :=
  Std.TreeMap.contains_eq_isSome_getElem?

theorem contains_iff : s.contains name = true ↔ ∃ m, s.get? name = some m := by
  rw [contains_eq_isSome, Option.isSome_iff_exists]

theorem mem_names_iff : name ∈ s.names ↔ ∃ m, s.get? name = some m :=
  Std.TreeMap.mem_keys.trans s.contains_iff

theorem size_eq_length : s.size = s.names.length := Std.TreeMap.length_keys.symm

theorem isEmpty_eq : s.isEmpty = s.names.isEmpty := Std.TreeMap.isEmpty_keys.symm

theorem pairwise_names : s.names.Pairwise fun a b => bytes a < bytes b := by
  have hlt {a b : String} (h : compare a b = .lt) : a < b := compareOfLessAndEq_eq_lt.1 h
  exact Std.TreeMap.ordered_keys.imp fun h => bytes_lt (hlt h)

structure Alike (s s' : Symbols) : Prop where
  get? (name : String) : s.get? name = s'.get? name
  contains (name : String) : s.contains name = s'.contains name
  names : s.names = s'.names
  size : s.size = s'.size
  isEmpty : s.isEmpty = s'.isEmpty

variable {s}

theorem Alike.of_get? (h : ∀ name, s.get? name = s'.get? name) : s.Alike s' := by
  have hn : s.names = s'.names := (Std.TreeMap.Equiv.of_forall_constGet?_eq h).keys_eq
  refine ⟨h, fun name => ?_, hn, ?_, ?_⟩
  · rw [contains_eq_isSome, contains_eq_isSome, h]
  · rw [size_eq_length, size_eq_length, hn]
  · rw [isEmpty_eq, isEmpty_eq, hn]

end Symbols

/-- The last definition of a name counts, be it of a number or of a function, and the table lists
the names it knows. -/
theorem table_of_definitions (s : Symbols) (ds : List (String × Meaning)) :
    (∀ before name m after, ds = before ++ (name, m) :: after → (∀ d ∈ after, d.1 ≠ name) →
      (s.defineAll ds).get? name = some m) ∧
    (∀ name, (∀ d ∈ ds, d.1 ≠ name) → (s.defineAll ds).get? name = s.get? name) ∧
    (∀ name, (s.defineAll ds).contains name = true ↔ ∃ m, (s.defineAll ds).get? name = some m) ∧
    (s.defineAll ds).names.Pairwise (fun a b => bytes a < bytes b) ∧
    (∀ name, name ∈ (s.defineAll ds).names ↔ ∃ m, (s.defineAll ds).get? name = some m) ∧
    (s.defineAll ds).size = (s.defineAll ds).names.length ∧
    ((s.defineAll ds).isEmpty = true ↔ (s.defineAll ds).names = []) ∧
    ∀ ds', ds.Perm ds' → (ds.map Prod.fst).Nodup →
      (s.defineAll ds).Alike (s.defineAll ds') := by
  refine ⟨?_, fun _ => s.get?_defineAll_of_forall_ne, fun _ => (s.defineAll ds).contains_iff,
    (s.defineAll ds).pairwise_names, fun _ => (s.defineAll ds).mem_names_iff,
    (s.defineAll ds).size_eq_length, ?_, fun _ hp hn => .of_get? (s.get?_defineAll_of_perm hp hn)⟩
  · rintro before name m after rfl h
    exact s.get?_defineAll_of_last h
  · rw [Symbols.isEmpty_eq, List.isEmpty_iff]

theorem table_of_pi_defined_twice :
    (Symbols.standard.defineAll [("pi", .constant (.integer 3)), ("é", .function id),
      ("pi", .function Float.sin)]).get? "pi" = some (.function Float.sin) ∧
    (Symbols.standard.defineAll [("pi", .constant (.integer 3)), ("é", .function id)]).Alike
      (Symbols.standard.defineAll [("é", .function id), ("pi", .constant (.integer 3))]) := by
  obtain ⟨hl, -⟩ := table_of_definitions .standard
    [("pi", .constant (.integer 3)), ("é", .function id), ("pi", .function Float.sin)]
  obtain ⟨-, -, -, -, -, -, -, hp⟩ := table_of_definitions .standard
    [("pi", .constant (.integer 3)), ("é", .function id)]
  refine ⟨hl [("pi", .constant (.integer 3)), ("é", .function id)] _ _ [] rfl ?_, ?_⟩
  · intro d hd
    cases hd
  · exact hp _ (.swap _ _ _) (by decide)

end Reckon
