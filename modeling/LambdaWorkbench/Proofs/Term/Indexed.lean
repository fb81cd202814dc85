import LambdaWorkbench.Environment.Definitions
import LambdaWorkbench.Proofs.Term.Indices
import LambdaWorkbench.Proofs.Term.WellNamed

/-! # Indices of what is read

A scope decides the indices of a term that is read in it and nothing else. So a term that was read
has the index of every variable worked out, and so has every definition of an environment that
definitions were read into.
-/

namespace LambdaWorkbench

namespace Term

theorem reindexIn_lams (params : List String) (body : Term) (scope : List String) :
    (lams params body).reindexIn scope =
      lams params (body.reindexIn (params.reverse ++ scope)) := by
  induction params generalizing scope with
  | nil => rfl
  | cons param rest ih =>
    rw [List.reverse_cons, List.append_assoc]
    exact congrArg (lam param) (ih (param :: scope))

mutual

/-- In another scope an S-expression stands for the same term with other indices, or is at fault in
the same way. -/
theorem ofSexpr_eq_map_reindexIn (scope scope' : List String) (s : Sexpr) :
    ofSexpr scope' s = (ofSexpr scope s).map (reindexIn scope') := by
  cases s with
  | atom name =>
    rw [ofSexpr, ofSexpr]
    rfl
  | list items =>
    rw [ofSexpr, ofSexpr]
    exact ofItems_eq_map_reindexIn scope scope' items

theorem ofItems_eq_map_reindexIn (scope scope' : List String) (items : List Sexpr) :
    ofItems scope' items = (ofItems scope items).map (reindexIn scope') := by
  cases items with
  | nil =>
    rw [ofItems, ofItems]
    rfl
  | cons item rest =>
    rw [ofItems, ofItems]
    split
    · exact ofLambda_eq_map_reindexIn scope scope' rest
    · rw [ofSexpr_eq_map_reindexIn scope scope' item]
      cases ofSexpr scope item with
      | error fault => rfl
      | ok func => exact applyItems_eq_map_reindexIn scope scope' func rest

theorem applyItems_eq_map_reindexIn (scope scope' : List String) (func : Term)
    (items : List Sexpr) :
    applyItems scope' (func.reindexIn scope') items =
      (applyItems scope func items).map (reindexIn scope') := by
  cases items with
  | nil =>
    rw [applyItems, applyItems]
    rfl
  | cons item rest =>
    rw [applyItems, applyItems]
    split
    · rw [ofLambda_eq_map_reindexIn scope scope' rest]
      cases ofLambda scope rest <;> rfl
    · rw [ofSexpr_eq_map_reindexIn scope scope' item]
      cases ofSexpr scope item with
      | error fault => rfl
      | ok arg => exact applyItems_eq_map_reindexIn scope scope' (app func arg) rest

theorem ofLambda_eq_map_reindexIn (scope scope' : List String) (items : List Sexpr) :
    ofLambda scope' items = (ofLambda scope items).map (reindexIn scope') := by
  rcases items with - | ⟨name | - | ⟨first, others⟩, body⟩
  · rfl
  · rfl
  · rfl
  · rw [ofLambda, ofLambda]
    cases paramNames (first :: others) with
    | error fault => rfl
    | ok params =>
      have inside :=
        ofItems_eq_map_reindexIn (params.reverse ++ scope) (params.reverse ++ scope') body
      show (ofItems _ body >>= _) = (ofItems _ body >>= _).map _
      rw [inside]
      cases ofItems (params.reverse ++ scope) body with
      | error fault => rfl
      | ok inner => exact congrArg Except.ok (reindexIn_lams params inner scope').symm

end

/-- A term that was read in a scope has the indices of that scope. -/
theorem reindexIn_ofSexpr {scope : List String} {s : Sexpr} {t : Term}
    (h : ofSexpr scope s = .ok t) : t.reindexIn scope = t := by
  have same := ofSexpr_eq_map_reindexIn scope scope s
  rw [h] at same
  exact (Except.ok.inj same).symm

/-- **Indices are relative to the scope.** An S-expression stands for a term in every scope or in
none, and is then at fault in the same way. The terms for two scopes differ only in indices, and the
lambdas that make up the scope can be put around the term as it is. -/
theorem ofSexpr_relative_to_scope (scope : List String) (s : Sexpr) :
    (∃ fault, ofSexpr scope s = .error fault ∧ ofSexpr [] s = .error fault) ∨
      ∃ t u, ofSexpr scope s = .ok t ∧ ofSexpr [] s = .ok u ∧ t.unindexed = u.unindexed ∧
        (lams scope.reverse t).reindex = lams scope.reverse t := by
  have same := ofSexpr_eq_map_reindexIn [] scope s
  cases closed : ofSexpr [] s with
  | error fault =>
    rw [closed] at same
    exact .inl ⟨fault, same, rfl⟩
  | ok u =>
    rw [closed] at same
    refine .inr ⟨u.reindexIn scope, u, same, rfl, unindexed_reindexIn u scope, ?_⟩
    rw [reindex, reindexIn_lams, List.reverse_reverse, List.append_nil, reindexIn_reindexIn]

/-- Of two lambdas for one name, the inner one counts. -/
example : ofSexpr ["x", "y", "x"] (.list [.atom "x", .atom "y", .atom "z"]) =
    .ok (app (app (var "x" 1) (var "y" 2)) (free "z")) := rfl

theorem reindex_parse {text : String} {t : Term} (h : parse text = .ok t) : t.reindex = t :=
  reindexIn_ofSexpr h

end Term

namespace Environment

/-- Every definition has its indices worked out. -/
def Indexed (env : Environment) : Prop :=
  ∀ entry ∈ env.entries, entry.2.reindex = entry.2

variable {env env' : Environment}

theorem mem_putEntry {name : String} {term : Term} {entries : List (String × Term)}
    {entry : String × Term} (h : entry ∈ putEntry name term entries) :
    entry = (name, term) ∨ entry ∈ entries := by
  induction entries with
  | nil => exact .inl (List.mem_singleton.mp h)
  | cons first rest ih =>
    unfold putEntry at h
    split at h
    · rcases List.mem_cons.mp h with new | inRest
      · exact .inl new
      · exact .inr (List.mem_cons_of_mem _ inRest)
    · rcases List.mem_cons.mp h with here | later
      · exact .inr (here ▸ List.mem_cons_self)
      · exact (ih later).imp_right (List.mem_cons_of_mem _)

theorem indexed_empty : empty.Indexed :=
  nofun

theorem Indexed.insert {term : Term} (h : env.Indexed) (name : String)
    (indexed : term.reindex = term) : (env.insert name term).Indexed := by
  intro entry mem
  rcases mem_putEntry mem with rfl | old
  · exact indexed
  · exact h entry old

theorem Indexed.erase (h : env.Indexed) (name : String) : (env.erase name).Indexed := by
  intro entry mem
  exact h entry (List.mem_filter.mp mem).1

theorem insert_of_define {name text : String} {old : Option Term}
    (h : env.define name text = .ok (old, env')) :
    ∃ term, Term.parse text = .ok term ∧ env' = env.insert name term := by
  unfold define at h
  split at h
  · rename_i term parsed
    cases h
    exact ⟨term, parsed, rfl⟩
  · cases h

theorem Indexed.define {name text : String} {old : Option Term} (h : env.Indexed)
    (eq : env.define name text = .ok (old, env')) : env'.Indexed := by
  obtain ⟨term, parsed, rfl⟩ := insert_of_define eq
  exact h.insert name (Term.reindex_parse parsed)

/-- Adding definitions one after the other keeps the indices of all of them. -/
theorem Indexed.foldlM_define {definitions : List (String × String)} (h : env.Indexed)
    (steps : definitions.foldlM (fun env entry => (env.define entry.1 entry.2).map (·.2)) env
      = .ok env') : env'.Indexed := by
  induction definitions generalizing env with
  | nil =>
    cases steps
    exact h
  | cons entry rest ih =>
    rw [List.foldlM_cons] at steps
    obtain ⟨next, added, others⟩ := Term.exists_ok_of_bind steps
    cases eq : env.define entry.1 entry.2 with
    | error cause =>
      rw [eq] at added
      cases added
    | ok result =>
      rw [eq] at added
      cases added
      exact ih (h.define eq) others

theorem indexed_ofDefinitions {definitions : List (String × String)}
    (h : ofDefinitions definitions = .ok env) : env.Indexed :=
  indexed_empty.foldlM_define h

/-- An environment that definitions were read into, from lists, from files or one by one. -/
inductive Built : Environment → Prop
  | ofDefinitions {definitions : List (String × String)} {env : Environment} :
      Environment.ofDefinitions definitions = .ok env → Built env
  | ofSource {source : String} {env : Environment} :
      Environment.ofSource source = .ok env → Built env
  | define {env env' : Environment} {name text : String} {old : Option Term} :
      Built env → env.define name text = .ok (old, env') → Built env'

theorem Built.indexed (h : env.Built) : env.Indexed := by
  induction h with
  | ofDefinitions eq => exact indexed_ofDefinitions eq
  | ofSource eq =>
    obtain ⟨found, -, eq⟩ := Term.exists_ok_of_bind eq
    exact indexed_ofDefinitions eq
  | define _ eq ih => exact ih.define eq

end Environment

end LambdaWorkbench
