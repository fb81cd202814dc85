import LambdaWorkbench.Proofs.Redex.Contraction
import LambdaWorkbench.Proofs.Sexpr.Reading

/-! # Well-named terms

The names in a well-named term are readable, and no variable is called like the word that starts
an abstraction. Parsing yields such terms and reduction keeps them so: the names that a reduction
makes up are those of parameters with primes.
-/

namespace LambdaWorkbench

open Shorthand

namespace Term

/-- A name that a variable can be written with. -/
structure VariableName (name : String) : Prop where
  readable : Readable name
  notWord : name ≠ lambdaWord

/-- Every name can be read back where it stands. -/
def WellNamed : Term → Prop
  | var name _ => VariableName name
  | lam param body => Readable param ∧ body.WellNamed
  | app func arg => func.WellNamed ∧ arg.WellNamed

variable {t u arg sub new : Term} {name old : String} {used free : List String}
  {address : Address} {binders : List String}

/-! ## Fresh names -/

theorem VariableName.prime (h : VariableName name) : VariableName (name ++ "'") where
  readable := h.readable.prime
  notWord := by
    intro same
    have last := congrArg (fun text => text.toList.getLast?) same
    simp [lambdaWord] at last

theorem VariableName.primeWhileUsed (h : VariableName name) (used : List String) (fuel : Nat) :
    VariableName (primeWhileUsed used fuel name) := by
  fun_induction LambdaWorkbench.primeWhileUsed used fuel name with
  | case1 name => exact h
  | case2 name fuel taken ih => exact ih h.prime
  | case3 name fuel untaken => exact h

theorem VariableName.freshName (h : VariableName name) (used : List String) :
    VariableName (freshName name used) :=
  h.primeWhileUsed used used.length

theorem VariableName.of_canBind (h : canBind name = true) (notWord : name ≠ lambdaWord) :
    VariableName name :=
  ⟨.of_canBind h, notWord⟩

/-! ## Renaming and substitution -/

theorem WellNamed.variableName (h : t.WellNamed) (mem : name ∈ t.freeVars) :
    VariableName name := by
  induction t with
  | var occurring index => exact List.mem_singleton.mp mem ▸ h
  | lam param body ih => exact ih h.2 (List.mem_filter.mp mem).1
  | app func arg ihf iha =>
    rcases List.mem_append.mp mem with inFunc | inArg
    · exact ihf h.1 inFunc
    · exact iha h.2 inArg

theorem WellNamed.renameFree (h : t.WellNamed) (hn : VariableName name) (old : String) :
    (t.renameFree old name).WellNamed := by
  induction t with
  | var occurring index =>
    rw [Term.renameFree]
    split
    · exact hn
    · exact h
  | lam param body ih =>
    rw [Term.renameFree]
    split
    · exact h
    · exact ⟨h.1, ih h.2⟩
  | app func arg ihf iha => exact ⟨ihf h.1, iha h.2⟩

theorem WellNamed.substIn (h : t.WellNamed) (ha : arg.WellNamed)
    (hf : ∀ name ∈ free, VariableName name) (name : String) :
    (substIn name arg free t).WellNamed := by
  fun_induction Term.substIn name arg free t with
  | case1 index => exact ha
  | case2 occurring index other => exact h
  | case3 func right ihf iha => exact ⟨ihf h.1, iha h.2⟩
  | case4 body => exact h
  | case5 param body differ clash fresh =>
    rename_i ih
    have named : VariableName fresh := (hf param clash.1).freshName _
    exact ⟨named.readable, ih (h.2.renameFree named param)⟩
  | case6 param body differ noClash ih => exact ⟨h.1, ih h.2⟩

theorem WellNamed.subst (h : t.WellNamed) (ha : arg.WellNamed) (name : String) :
    (t.subst name arg).WellNamed :=
  h.substIn ha (fun _ mem => ha.variableName mem) name

theorem WellNamed.protect (h : t.WellNamed) (hf : ∀ name ∈ free, VariableName name)
    (steps : Address) : (t.protect free steps).WellNamed := by
  fun_induction Term.protect free steps t with
  | case1 steps param body clash fresh =>
    rename_i ih
    have named : VariableName fresh := (hf param clash).freshName _
    exact ⟨named.readable, ih (h.2.renameFree named param)⟩
  | case2 steps param body noClash ih => exact ⟨h.1, ih h.2⟩
  | case3 steps func arg ih => exact ⟨ih h.1, h.2⟩
  | case4 steps func arg ih => exact ⟨h.1, ih h.2⟩
  | case5 => exact h

theorem wellNamed_reindexIn {scope : List String} (h : t.WellNamed) :
    (t.reindexIn scope).WellNamed := by
  induction t generalizing scope with
  | var name index => exact h
  | lam param body ih => exact ⟨h.1, ih h.2⟩
  | app func arg ihf iha => exact ⟨ihf h.1, iha h.2⟩

theorem variableName_church : VariableName "f" ∧ VariableName "x" :=
  ⟨⟨.of_canBind (by decide), by decide⟩, ⟨.of_canBind (by decide), by decide⟩⟩

theorem wellNamed_church (n : Nat) : (church n).WellNamed := by
  obtain ⟨func, start⟩ := variableName_church
  refine ⟨func.readable, start.readable, ?_⟩
  induction n with
  | zero => exact start
  | succ n ih => exact ⟨func, ih⟩

/-! ## Reduction -/

theorem Path.wellNamed (h : Path t address binders sub) (named : t.WellNamed) : sub.WellNamed := by
  induction h with
  | root t => exact named
  | func _ ih => exact ih named.1
  | body _ ih | arg _ ih => exact ih named.2

theorem Path.wellNamed_replaceFrom (h : Path t address binders sub) (named : t.WellNamed)
    (hn : new.WellNamed) (depth : Nat) :
    ∃ u, replaceFrom new depth address t = .ok u ∧ u.WellNamed := by
  induction h generalizing depth with
  | root t => exact ⟨new, rfl, hn⟩
  | @func _ arg _ _ _ _ ih =>
    obtain ⟨u, eq, hu⟩ := ih named.1 (depth + 1)
    exact ⟨app u arg, by rw [replaceFrom, eq]; rfl, hu, named.2⟩
  | @body param _ _ _ _ _ ih =>
    obtain ⟨u, eq, hu⟩ := ih named.2 (depth + 1)
    exact ⟨lam param u, by rw [replaceFrom, eq]; rfl, named.1, hu⟩
  | @arg func _ _ _ _ _ ih =>
    obtain ⟨u, eq, hu⟩ := ih named.2 (depth + 1)
    exact ⟨app func u, by rw [replaceFrom, eq]; rfl, named.1, hu⟩

theorem Path.wellNamed_replaceAt (h : Path t address binders sub) (named : t.WellNamed)
    (hn : new.WellNamed) : ∃ u, t.replaceAt address new = .ok u ∧ u.WellNamed := by
  obtain ⟨u, eq, hu⟩ := h.wellNamed_replaceFrom named hn 0
  exact ⟨u, by rw [replaceAt, eq]; rfl, hu⟩

end Term

namespace Environment

variable {env : Environment} {t u sub : Term} {address : Address} {binders : List String}
  {redex : Redex}

/-- Every definition is well named. -/
def WellNamed (env : Environment) : Prop :=
  ∀ name term, env.get? name = some term → term.WellNamed

theorem WellNamed.contract (he : env.WellNamed) (h : Term.Path t address binders sub)
    (named : t.WellNamed) (kind : env.classifyBelow binders sub = .ok redex) :
    ∃ u, env.contract t address sub redex = .ok (some u) ∧ u.WellNamed := by
  obtain ⟨param, body, arg, rfl, rfl⟩ | ⟨name, index, term, rfl, -, defined, rfl⟩ |
    ⟨name, index, value, rfl, -, -, -, -, rfl⟩ := classifyBelow_cases kind
  · obtain ⟨⟨-, inBody⟩, inArg⟩ := h.wellNamed named
    obtain ⟨u, eq, hu⟩ := h.wellNamed_replaceAt named (inBody.subst inArg param)
    exact ⟨u, by rw [Environment.contract, eq]; rfl, hu⟩
  · have inTerm := he name term defined
    obtain ⟨binders', sub', path, -⟩ := h.protect term.freeVars
    have protected' := named.protect (fun _ mem => inTerm.variableName mem) address
    obtain ⟨u, eq, hu⟩ := path.wellNamed_replaceAt protected' inTerm
    exact ⟨u, by rw [Environment.contract, defined]; simp only [eq]; rfl, hu⟩
  · obtain ⟨u, eq, hu⟩ := h.wellNamed_replaceAt named (Term.wellNamed_church value)
    exact ⟨u, by rw [Environment.contract, eq]; rfl, hu⟩

/-- Reduction keeps terms well named. -/
theorem WellNamed.reduceAt (he : env.WellNamed) (named : t.WellNamed)
    (h : env.reduceAt t address = .ok (some u)) : u.WellNamed := by
  cases found : t.subterm address with
  | error fault =>
    rw [Term.reduceAt_of_error found] at h
    cases h
  | ok sub =>
    obtain ⟨binders, path⟩ := Term.Path.of_subterm found
    rw [path.reduceAt_eq] at h
    cases kind : env.classifyBelow binders sub with
    | error reason =>
      rw [kind] at h
      cases h
    | ok redex =>
      obtain ⟨v, eq, hv⟩ := he.contract path named kind
      simp only [kind, eq] at h
      cases h
      exact Term.wellNamed_reindexIn hv

end Environment

namespace Term

/-! ## Parsing -/

open Sexpr

/-- A computation in two parts succeeds only if both do. -/
theorem exists_ok_of_bind {ε α β : Type} {x : Except ε α} {f : α → Except ε β} {b : β}
    (h : x >>= f = .ok b) : ∃ a, x = .ok a ∧ f a = .ok b := by
  cases x with
  | error fault => cases h
  | ok a => exact ⟨a, rfl, h⟩

theorem readable_paramNames {items : List Sexpr} {params : List String}
    (h : paramNames items = .ok params) (readable : Token.AllAtoms Readable (itemTokens items)) :
    ∀ name ∈ params, Readable name := by
  induction items generalizing params with
  | nil =>
    cases h
    exact nofun
  | cons item rest ih =>
    cases item with
    | list inner => cases h
    | atom name =>
      rw [itemTokens_cons, tokens_atom, List.singleton_append, Token.allAtoms_atom] at readable
      obtain ⟨others, more, eq⟩ := exists_ok_of_bind h
      cases eq
      exact List.forall_mem_cons.mpr ⟨readable.1, ih more readable.2⟩

theorem wellNamed_lams {params : List String} {body : Term}
    (readable : ∀ name ∈ params, Readable name) (h : body.WellNamed) :
    (lams params body).WellNamed := by
  induction params with
  | nil => exact h
  | cons param rest ih =>
    rw [List.forall_mem_cons] at readable
    exact ⟨readable.1, ih readable.2⟩

mutual

theorem wellNamed_ofSexpr {scope : List String} {s : Sexpr} {t : Term}
    (h : ofSexpr scope s = .ok t) (notWord : startsLambda s = false)
    (readable : Token.AllAtoms Readable s.tokens) : t.WellNamed := by
  cases s with
  | atom name =>
    cases h
    rw [tokens_atom, Token.allAtoms_atom] at readable
    exact ⟨readable.1, beq_eq_false_iff_ne.mp notWord⟩
  | list items =>
    rw [tokens_list, List.cons_append, Token.allAtoms_opening, Token.allAtoms_append] at readable
    exact wellNamed_ofItems h readable.1

theorem wellNamed_ofItems {scope : List String} {items : List Sexpr} {t : Term}
    (h : ofItems scope items = .ok t)
    (readable : Token.AllAtoms Readable (itemTokens items)) : t.WellNamed := by
  cases items with
  | nil => cases h
  | cons item rest =>
    rw [itemTokens_cons, Token.allAtoms_append] at readable
    rw [ofItems] at h
    cases word : startsLambda item with
    | true =>
      rw [if_pos word] at h
      exact wellNamed_ofLambda h readable.2
    | false =>
      rw [if_neg (by simp [word])] at h
      obtain ⟨func, first, others⟩ := exists_ok_of_bind h
      exact wellNamed_applyItems others (wellNamed_ofSexpr first word readable.1) readable.2

theorem wellNamed_applyItems {scope : List String} {func : Term} {items : List Sexpr} {t : Term}
    (h : applyItems scope func items = .ok t) (named : func.WellNamed)
    (readable : Token.AllAtoms Readable (itemTokens items)) : t.WellNamed := by
  cases items with
  | nil =>
    cases h
    exact named
  | cons item rest =>
    rw [itemTokens_cons, Token.allAtoms_append] at readable
    rw [applyItems] at h
    cases word : startsLambda item with
    | true =>
      rw [if_pos word] at h
      obtain ⟨arg, last, eq⟩ := exists_ok_of_bind h
      cases eq
      exact ⟨named, wellNamed_ofLambda last readable.2⟩
    | false =>
      rw [if_neg (by simp [word])] at h
      obtain ⟨arg, next, others⟩ := exists_ok_of_bind h
      exact wellNamed_applyItems others ⟨named, wellNamed_ofSexpr next word readable.1⟩ readable.2

theorem wellNamed_ofLambda {scope : List String} {items : List Sexpr} {t : Term}
    (h : ofLambda scope items = .ok t)
    (readable : Token.AllAtoms Readable (itemTokens items)) : t.WellNamed := by
  cases items with
  | nil => cases h
  | cons item body =>
    rw [itemTokens_cons, Token.allAtoms_append] at readable
    rcases item with name | - | ⟨first, others⟩
    · cases h
    · cases h
    · rw [ofLambda] at h
      rw [tokens_list, List.cons_append, Token.allAtoms_opening, Token.allAtoms_append] at readable
      obtain ⟨params, given, rest⟩ := exists_ok_of_bind h
      obtain ⟨inner, inside, eq⟩ := exists_ok_of_bind rest
      cases eq
      exact wellNamed_lams (readable_paramNames given readable.1.1)
        (wellNamed_ofItems inside readable.2)

end

/-- Parsing yields well-named terms. -/
theorem wellNamed_parse {text : String} {t : Term} (h : parse text = .ok t) : t.WellNamed := by
  refine wellNamed_ofSexpr h rfl ?_
  rw [Sexpr.read, tokens_list, List.cons_append, Token.allAtoms_opening, Token.allAtoms_append]
  exact ⟨allAtoms_reading (plain_expand text), by simp⟩

theorem parse_of_parseStrict {text : String} {t : Term} (h : parseStrict text = .ok t) :
    parse text = .ok t := by
  obtain ⟨items, strict, eq⟩ := exists_ok_of_bind h
  unfold readStrict at strict
  split at strict
  · cases strict
    exact eq
  · cases strict
  · cases strict

end Term

end LambdaWorkbench
