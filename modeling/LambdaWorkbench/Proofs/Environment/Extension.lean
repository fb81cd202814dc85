import LambdaWorkbench.Proofs.Term.Indexed

/-! # Extending an environment

Definitions may be gathered in an environment of their own, which another one is then extended by,
or they may be added to the other one directly. Both come to the same: a name keeps the place at
which it came in first, and the last of its definitions counts.
-/

namespace LambdaWorkbench

section Entries

variable {name name' : String} {term term' : Term} {entries : List (String × Term)}

/-- Of two definitions of a name the later one stays. -/
theorem putEntry_putEntry_self (name : String) (term term' : Term)
    (entries : List (String × Term)) :
    putEntry name term' (putEntry name term entries) = putEntry name term' entries := by
  induction entries with
  | nil => simp [putEntry]
  | cons entry rest ih =>
    by_cases same : entry.1 = name
    · simp only [putEntry, if_pos same, if_pos]
    · simp only [putEntry, if_neg same, ih]

/-- A new name comes in at the end. -/
theorem putEntry_of_notMem (absent : name ∉ entries.map Prod.fst) :
    putEntry name term entries = entries ++ [(name, term)] := by
  induction entries with
  | nil => rfl
  | cons entry rest ih =>
    rw [List.map_cons, List.mem_cons, not_or] at absent
    rw [putEntry, if_neg (Ne.symm absent.1), ih absent.2, List.cons_append]

/-- A known name keeps its place. -/
theorem keys_putEntry_of_mem (known : name ∈ entries.map Prod.fst) (term : Term) :
    (putEntry name term entries).map Prod.fst = entries.map Prod.fst := by
  induction entries with
  | nil => cases known
  | cons entry rest ih =>
    unfold putEntry
    split
    · rename_i same
      rw [List.map_cons, List.map_cons, same]
    · rename_i other
      rw [List.map_cons, List.mem_cons] at known
      rw [List.map_cons, List.map_cons, ih (known.resolve_left (Ne.symm other))]

/-- A definition that only replaces another one does not compete for a place. -/
theorem putEntry_comm (other : name' ≠ name) (known : name ∈ entries.map Prod.fst) :
    putEntry name term (putEntry name' term' entries) =
      putEntry name' term' (putEntry name term entries) := by
  induction entries with
  | nil => cases known
  | cons entry rest ih =>
    by_cases here : entry.1 = name
    · have elsewhere : entry.1 ≠ name' := fun same => other (same.symm.trans here)
      simp only [putEntry, if_pos here, if_neg elsewhere, if_neg other.symm]
    · have later : name ∈ rest.map Prod.fst := by
        rw [List.map_cons, List.mem_cons] at known
        exact known.resolve_left (Ne.symm here)
      by_cases here' : entry.1 = name'
      · simp only [putEntry, if_neg here, if_pos here', if_neg other]
      · simp only [putEntry, if_neg here, if_neg here', ih later]

end Entries

namespace Environment

variable {env other other' : Environment} {name name' text : String} {term term' : Term}

theorem eq_of_entries {env env' : Environment} (entries : env.entries = env'.entries)
    (limit : env.numeralLimit = env'.numeralLimit) : env = env' := by
  cases env
  cases env'
  cases entries
  cases limit
  rfl

theorem insert_insert_self (env : Environment) (name : String) (term term' : Term) :
    (env.insert name term).insert name term' = env.insert name term' :=
  eq_of_entries (putEntry_putEntry_self name term term' env.entries) rfl

theorem insert_comm (different : name' ≠ name) (known : name ∈ env.names) :
    (env.insert name' term').insert name term = (env.insert name term).insert name' term' :=
  eq_of_entries (putEntry_comm different known) rfl

theorem mem_names_insert :
    name' ∈ (env.insert name term).names ↔ name' = name ∨ name' ∈ env.names :=
  mem_keys_putEntry

/-! ## Many definitions -/

/-- Adds definitions one after the other. -/
def insertAll (env : Environment) (entries : List (String × Term)) : Environment :=
  entries.foldl (fun env entry => env.insert entry.1 entry.2) env

theorem insertAll_cons (env : Environment) (entry : String × Term) (rest : List (String × Term)) :
    env.insertAll (entry :: rest) = (env.insert entry.1 entry.2).insertAll rest :=
  rfl

/-- New names come in at the end, in their order. -/
theorem entries_insertAll {entries : List (String × Term)}
    (distinct : ((env.entries ++ entries).map Prod.fst).Nodup) :
    (env.insertAll entries).entries = env.entries ++ entries := by
  induction entries generalizing env with
  | nil => exact (List.append_nil _).symm
  | cons entry rest ih =>
    have absent : entry.1 ∉ env.entries.map Prod.fst := by
      rw [List.map_append, List.nodup_append] at distinct
      exact fun known => distinct.2.2 _ known _ List.mem_cons_self rfl
    have added : (env.insert entry.1 entry.2).entries = env.entries ++ [entry] :=
      putEntry_of_notMem absent
    have whole : env.entries ++ entry :: rest = (env.insert entry.1 entry.2).entries ++ rest := by
      rw [added, List.append_assoc, List.singleton_append]
    rw [whole] at distinct ⊢
    rw [insertAll_cons, ih distinct]

theorem numeralLimit_insertAll (env : Environment) (entries : List (String × Term)) :
    (env.insertAll entries).numeralLimit = env.numeralLimit := by
  induction entries generalizing env with
  | nil => rfl
  | cons entry rest ih => rw [insertAll_cons, ih, numeralLimit_insert]

/-- A known name can be defined before other names just as well as after them. -/
theorem insertAll_insert {entries : List (String × Term)} (known : name ∈ env.names)
    (absent : name ∉ entries.map Prod.fst) :
    (env.insert name term).insertAll entries = (env.insertAll entries).insert name term := by
  induction entries generalizing env with
  | nil => rfl
  | cons entry rest ih =>
    rw [List.map_cons, List.mem_cons, not_or] at absent
    rw [insertAll_cons, insertAll_cons, ← insert_comm (Ne.symm absent.1) known]
    exact ih (mem_names_insert.mpr (.inr known)) absent.2

/-- To set a definition in a list and then add the list is to add the list and then the
definition. -/
theorem insertAll_putEntry {entries : List (String × Term)}
    (distinct : (entries.map Prod.fst).Nodup) :
    env.insertAll (putEntry name term entries) = (env.insertAll entries).insert name term := by
  induction entries generalizing env with
  | nil => rfl
  | cons entry rest ih =>
    rw [List.map_cons, List.nodup_cons] at distinct
    unfold putEntry
    split
    · rename_i same
      have known : name ∈ (env.insert name entry.2).names := mem_names_insert.mpr (.inl rfl)
      rw [same] at distinct
      rw [insertAll_cons, insertAll_cons, same, ← insertAll_insert known distinct.1,
        insert_insert_self]
    · exact ih distinct.2

/-- An extension by one more definition is the extension and then that definition. -/
theorem extend_insert (env other : Environment) (name : String) (term : Term) :
    env.extend (other.insert name term) = (env.extend other).insert name term :=
  insertAll_putEntry other.nodup_keys

/-! ## Definitions as texts -/

/-- Parses and adds definitions one after the other, up to the first that cannot be parsed. -/
def defineAll (env : Environment) (definitions : List (String × String)) :
    Except ParseError Environment :=
  definitions.foldlM (fun env entry => (env.define entry.1 entry.2).map (·.2)) env

theorem define_of_parse (h : Term.parse text = .ok term) (env : Environment) (name : String) :
    env.define name text = .ok (env.get? name, env.insert name term) := by
  rw [define, h]
  rfl

theorem defineAll_cons_of_parse (h : Term.parse text = .ok term) (env : Environment)
    (name : String) (rest : List (String × String)) :
    env.defineAll ((name, text) :: rest) = (env.insert name term).defineAll rest := by
  rw [defineAll, List.foldlM_cons, define_of_parse h]
  rfl

theorem exists_of_defineAll_cons {entry : String × String} {rest : List (String × String)}
    (h : env.defineAll (entry :: rest) = .ok other) :
    ∃ term, Term.parse entry.2 = .ok term ∧
      (env.insert entry.1 term).defineAll rest = .ok other := by
  rw [defineAll, List.foldlM_cons] at h
  obtain ⟨next, added, others⟩ := Term.exists_ok_of_bind h
  cases eq : env.define entry.1 entry.2 with
  | error cause =>
    rw [eq] at added
    cases added
  | ok result =>
    rw [eq] at added
    cases added
    obtain ⟨term, parsed, same⟩ := insert_of_define eq
    exact ⟨term, parsed, same ▸ others⟩

/-- Definitions that can be added to the extending environment can be added to the extended one, and
then that is the extension by the result. -/
theorem defineAll_extend {definitions : List (String × String)}
    (h : other.defineAll definitions = .ok other') (env : Environment) :
    (env.extend other).defineAll definitions = .ok (env.extend other') := by
  induction definitions generalizing other with
  | nil =>
    cases h
    rfl
  | cons entry rest ih =>
    obtain ⟨term, parsed, others⟩ := exists_of_defineAll_cons h
    rw [defineAll_cons_of_parse parsed, ← extend_insert]
    exact ih others

/-- The environment of a list of definitions, added to another one, is the other one with these
definitions added directly. -/
theorem defineAll_eq_extend {definitions : List (String × String)}
    (h : ofDefinitions definitions = .ok other) (env : Environment) :
    env.defineAll definitions = .ok (env.extend other) := by
  have whole : empty.defineAll definitions = .ok other := h
  exact defineAll_extend whole env

end Environment

end LambdaWorkbench
