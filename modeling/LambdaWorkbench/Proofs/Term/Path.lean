import LambdaWorkbench.Proofs.Nameless.Reduction
import LambdaWorkbench.Proofs.Term.Reading
import LambdaWorkbench.Redex.Reduce

/-! # Paths to subterms

The three walks along an address, to look up, to collect parameters and to replace, succeed on the
same addresses. A path says what they come to, a misfit says where all three of them fail, and the
reading without names of a replacement is the replacement in the reading.
-/

namespace LambdaWorkbench.Term

/-- An address leads from a term, across lambdas with these parameters, to a subterm. -/
inductive Path : Term → Address → List String → Term → Prop
  | root (t : Term) : Path t [] [] t
  | func {func arg sub : Term} {rest : Address} {binders : List String} :
      Path func rest binders sub → Path (app func arg) (.func :: rest) binders sub
  | body {param : String} {body sub : Term} {rest : Address} {binders : List String} :
      Path body rest binders sub → Path (lam param body) (.body :: rest) (param :: binders) sub
  | arg {func arg sub : Term} {rest : Address} {binders : List String} :
      Path arg rest binders sub → Path (app func arg) (.arg :: rest) binders sub

variable {t sub new : Term} {address : Address} {binders : List String} {position : Nat}

theorem Path.subtermFrom_eq (h : Path t address binders sub) (depth : Nat) :
    subtermFrom depth address t = .ok sub := by
  induction h generalizing depth with
  | root t => rfl
  | func _ ih | body _ ih | arg _ ih => exact ih (depth + 1)

theorem Path.bindersFrom_eq (h : Path t address binders sub) (depth : Nat) :
    bindersFrom depth address t = .ok binders := by
  induction h generalizing depth with
  | root t => rfl
  | func _ ih | arg _ ih => exact ih (depth + 1)
  | body _ ih => rw [bindersFrom, ih (depth + 1)]; rfl

theorem Path.subterm_eq (h : Path t address binders sub) : t.subterm address = .ok sub := by
  rw [subterm, h.subtermFrom_eq]
  rfl

theorem Path.bindersAlong_eq (h : Path t address binders sub) :
    t.bindersAlong address = .ok binders := by
  rw [bindersAlong, h.bindersFrom_eq]
  rfl

/-! ## Steps that do not fit -/

/-- Whether a step leads to a child of a node. -/
def fits : Term → Step → Bool
  | app _ _, .func | lam _ _, .body | app _ _, .arg => true
  | _, _ => false

/-- The first step of an address that does not fit is at this position, counted from zero. -/
inductive Misfit : Term → Address → Nat → Prop
  | here {t : Term} {step : Step} {rest : Address} :
      t.fits step = false → Misfit t (step :: rest) 0
  | func {func arg : Term} {rest : Address} {position : Nat} :
      Misfit func rest position → Misfit (app func arg) (.func :: rest) (position + 1)
  | body {param : String} {body : Term} {rest : Address} {position : Nat} :
      Misfit body rest position → Misfit (lam param body) (.body :: rest) (position + 1)
  | arg {func arg : Term} {rest : Address} {position : Nat} :
      Misfit arg rest position → Misfit (app func arg) (.arg :: rest) (position + 1)

theorem path_or_misfit (t : Term) (address : Address) :
    (∃ binders sub, Path t address binders sub) ∨ ∃ position, Misfit t address position := by
  induction address generalizing t with
  | nil => exact .inl ⟨[], t, .root t⟩
  | cons step rest ih =>
    cases fit : t.fits step with
    | false => exact .inr ⟨0, .here fit⟩
    | true =>
      match t, step, fit with
      | app func arg, .func, _ =>
        obtain ⟨binders, sub, path⟩ | ⟨position, misfit⟩ := ih func
        · exact .inl ⟨binders, sub, .func path⟩
        · exact .inr ⟨position + 1, .func misfit⟩
      | lam param body, .body, _ =>
        obtain ⟨binders, sub, path⟩ | ⟨position, misfit⟩ := ih body
        · exact .inl ⟨param :: binders, sub, .body path⟩
        · exact .inr ⟨position + 1, .body misfit⟩
      | app func arg, .arg, _ =>
        obtain ⟨binders, sub, path⟩ | ⟨position, misfit⟩ := ih arg
        · exact .inl ⟨binders, sub, .arg path⟩
        · exact .inr ⟨position + 1, .arg misfit⟩

theorem error_of_not_fits {step : Step} (misfit : t.fits step = false) (rest : Address)
    (depth : Nat) :
    subtermFrom depth (step :: rest) t = .error depth ∧
      bindersFrom depth (step :: rest) t = .error depth ∧
      ∀ new, replaceFrom new depth (step :: rest) t = .error depth := by
  cases t <;> cases step <;> first | exact ⟨rfl, rfl, fun _ => rfl⟩ | cases misfit

theorem Misfit.subtermFrom_eq (h : Misfit t address position) (depth : Nat) :
    subtermFrom depth address t = .error (depth + position) := by
  induction h generalizing depth with
  | here misfit => exact (error_of_not_fits misfit _ depth).1
  | func _ ih | body _ ih | arg _ ih =>
    rw [subtermFrom, ih, Nat.add_right_comm, Nat.add_assoc]

theorem Misfit.bindersFrom_eq (h : Misfit t address position) (depth : Nat) :
    bindersFrom depth address t = .error (depth + position) := by
  induction h generalizing depth with
  | here misfit => exact (error_of_not_fits misfit _ depth).2.1
  | func _ ih | arg _ ih => rw [bindersFrom, ih, Nat.add_right_comm, Nat.add_assoc]
  | body _ ih =>
    rw [bindersFrom, ih, Nat.add_right_comm, Nat.add_assoc]
    rfl

theorem Misfit.replaceFrom_eq (h : Misfit t address position) (new : Term) (depth : Nat) :
    replaceFrom new depth address t = .error (depth + position) := by
  induction h generalizing depth with
  | here misfit => exact (error_of_not_fits misfit _ depth).2.2 new
  | func _ ih | body _ ih | arg _ ih =>
    rw [replaceFrom, ih, Nat.add_right_comm, Nat.add_assoc]
    rfl

theorem Misfit.subterm_eq (h : Misfit t address position) :
    t.subterm address = .error (.mismatch address position) := by
  rw [subterm, h.subtermFrom_eq, Nat.zero_add]
  rfl

theorem Misfit.bindersAlong_eq (h : Misfit t address position) :
    t.bindersAlong address = .error (.mismatch address position) := by
  rw [bindersAlong, h.bindersFrom_eq, Nat.zero_add]
  rfl

theorem Misfit.replaceAt_eq (h : Misfit t address position) (new : Term) :
    t.replaceAt address new = .error (.mismatch address position) := by
  rw [replaceAt, h.replaceFrom_eq, Nat.zero_add]
  rfl

theorem Path.of_subterm (h : t.subterm address = .ok sub) :
    ∃ binders, Path t address binders sub := by
  obtain ⟨binders, found, path⟩ | ⟨position, misfit⟩ := path_or_misfit t address
  · rw [path.subterm_eq] at h
    cases h
    exact ⟨binders, path⟩
  · rw [misfit.subterm_eq] at h
    cases h

theorem Misfit.of_subterm {fault : AddressError} (h : t.subterm address = .error fault) :
    ∃ position, Misfit t address position ∧ fault = .mismatch address position := by
  obtain ⟨binders, found, path⟩ | ⟨position, misfit⟩ := path_or_misfit t address
  · rw [path.subterm_eq] at h
    cases h
  · rw [misfit.subterm_eq] at h
    cases h
    exact ⟨position, misfit, rfl⟩

/-! ## Redexes at the end of a path -/

theorem Path.classify_eq (h : Path t address binders sub) (env : Environment) :
    env.classify t address = .ok (env.classifyBelow binders sub) := by
  rw [Environment.classify, h.subterm_eq, h.bindersAlong_eq]
  rfl

/-- At the end of a path only the kind of redex decides what a reduction does. -/
theorem Path.reduceAt_eq (h : Path t address binders sub) (env : Environment) :
    env.reduceAt t address =
      match env.classifyBelow binders sub with
      | .error _ => .ok none
      | .ok redex => (env.contract t address sub redex).map (Option.map reindex) := by
  simp only [Environment.reduceAt, h.subterm_eq, h.bindersAlong_eq, bind, Except.bind, pure,
    Except.pure]
  cases env.classifyBelow binders sub with
  | error reason => rfl
  | ok redex => cases env.contract t address sub redex <;> rfl

theorem reduceAt_of_error {env : Environment} {fault : AddressError}
    (h : t.subterm address = .error fault) : env.reduceAt t address = .error fault := by
  rw [Environment.reduceAt, h]
  rfl

theorem classify_of_error {env : Environment} {fault : AddressError}
    (h : t.subterm address = .error fault) : env.classify t address = .error fault := by
  rw [Environment.classify, h]
  rfl

/-- A path read without names. -/
theorem Path.subterm?_nameless (h : Path t address binders sub) (scope : List String) :
    (t.namelessIn scope).subterm? address = some (sub.namelessIn (binders.reverse ++ scope)) := by
  induction h generalizing scope with
  | root t => exact Nameless.subterm?_root _
  | func _ ih | arg _ ih => exact ih scope
  | @body param _ _ _ _ _ ih =>
    rw [List.reverse_cons, List.append_assoc]
    exact ih (param :: scope)

theorem Path.of_subterm?_nameless {scope : List String} {s : Nameless}
    (h : (t.namelessIn scope).subterm? address = some s) :
    ∃ binders sub, Path t address binders sub := by
  induction address generalizing t scope with
  | nil => exact ⟨[], t, .root t⟩
  | cons step rest ih =>
    cases t with
    | var name index =>
      rw [namelessIn_var] at h
      split at h <;> cases step <;> cases h
    | lam param body =>
      cases step with
      | body => obtain ⟨binders, sub, path⟩ := ih h; exact ⟨param :: binders, sub, .body path⟩
      | func | arg => cases h
    | app func arg =>
      cases step with
      | func => obtain ⟨binders, sub, path⟩ := ih h; exact ⟨binders, sub, .func path⟩
      | arg => obtain ⟨binders, sub, path⟩ := ih h; exact ⟨binders, sub, .arg path⟩
      | body => cases h

/-- A replacement succeeds along a path, keeps the parameters on it, and reads as the replacement
in the reading. -/
theorem Path.replaceFrom_eq (h : Path t address binders sub) (new : Term) (depth : Nat) :
    ∃ u, replaceFrom new depth address t = .ok u ∧ Path u address binders new ∧
      ∀ scope, (t.namelessIn scope).replaceAt? address
        (new.namelessIn (binders.reverse ++ scope)) = some (u.namelessIn scope) := by
  induction h generalizing depth with
  | root t => exact ⟨new, rfl, .root new, fun scope => Nameless.replaceAt?_root _ _⟩
  | @func _ arg _ _ _ _ ih =>
    obtain ⟨u, eq, path, reads⟩ := ih (depth + 1)
    refine ⟨app u arg, by rw [replaceFrom, eq]; rfl, .func path, fun scope => ?_⟩
    rw [namelessIn, Nameless.replaceAt?, reads scope]
    rfl
  | @body param _ _ _ binders _ ih =>
    obtain ⟨u, eq, path, reads⟩ := ih (depth + 1)
    refine ⟨lam param u, by rw [replaceFrom, eq]; rfl, .body path, fun scope => ?_⟩
    rw [List.reverse_cons, List.append_assoc, namelessIn, Nameless.replaceAt?]
    exact congrArg (Option.map Nameless.lam) (reads (param :: scope))
  | @arg func _ _ _ _ _ ih =>
    obtain ⟨u, eq, path, reads⟩ := ih (depth + 1)
    refine ⟨app func u, by rw [replaceFrom, eq]; rfl, .arg path, fun scope => ?_⟩
    rw [namelessIn, Nameless.replaceAt?, reads scope]
    rfl

theorem Path.replaceAt_eq (h : Path t address binders sub) (new : Term) :
    ∃ u, t.replaceAt address new = .ok u ∧ Path u address binders new ∧
      t.nameless.replaceAt? address (new.namelessIn binders.reverse) = some u.nameless := by
  obtain ⟨u, eq, path, reads⟩ := h.replaceFrom_eq new 0
  refine ⟨u, by rw [replaceAt, eq]; rfl, path, ?_⟩
  rw [nameless, ← List.append_nil binders.reverse]
  exact reads []

theorem Path.reindexIn (h : Path t address binders sub) (scope : List String) :
    Path (t.reindexIn scope) address binders (sub.reindexIn (binders.reverse ++ scope)) := by
  induction h generalizing scope with
  | root t => exact .root _
  | func _ ih => exact .func (ih scope)
  | arg _ ih => exact .arg (ih scope)
  | @body param _ _ _ _ _ ih =>
    rw [List.reverse_cons, List.append_assoc]
    exact .body (ih (param :: scope))

/-- A free name of a subterm is free in the whole term unless a lambda on the path binds it. -/
theorem Path.mem_freeVars (h : Path t address binders sub) {name : String}
    (free : name ∈ sub.freeVars) (notBound : name ∉ binders) : name ∈ t.freeVars := by
  induction h with
  | root t => exact free
  | func _ ih => exact List.mem_append_left _ (ih free notBound)
  | arg _ ih => exact List.mem_append_right _ (ih free notBound)
  | body _ ih =>
    rw [List.mem_cons, not_or] at notBound
    exact List.mem_filter.mpr ⟨ih free notBound.2, by simpa using notBound.1⟩

/-! ## Protection of a path -/

/-- Protection only renames lambdas, so the reading stays the same. -/
theorem namelessIn_protect (free : List String) (steps : Address) (t : Term)
    (scope : List String) : (t.protect free steps).namelessIn scope = t.namelessIn scope := by
  fun_induction protect free steps t generalizing scope with
  | case1 steps param body clash fresh =>
    rename_i ih
    have notUsed : fresh ∉ body.names := fun mem =>
      freshName_not_mem param (body.names ++ free) (List.mem_append_left _ mem)
    rw [namelessIn, ih, ← namelessIn, namelessIn_lam_renameFree notUsed]
  | case2 steps param body noClash ih => simp only [namelessIn, ih]
  | case3 steps func arg ih => simp only [namelessIn, ih]
  | case4 steps func arg ih => simp only [namelessIn, ih]
  | case5 => rfl

/-- A renaming keeps every path and the parameters on it. It reaches the end of the path unless one
of these is the old name. -/
theorem Path.renameFree (h : Path t address binders sub) (old new : String) :
    Path (t.renameFree old new) address binders
      (if old ∈ binders then sub else sub.renameFree old new) := by
  induction h with
  | root t =>
    rw [if_neg List.not_mem_nil]
    exact .root _
  | func _ ih => exact .func ih
  | arg _ ih => exact .arg ih
  | @body param _ _ _ binders path ih =>
    rw [Term.renameFree]
    split
    · rename_i same
      rw [if_pos (same ▸ List.mem_cons_self)]
      exact .body path
    · rename_i differ
      simp only [List.mem_cons, Ne.symm differ, false_or]
      exact .body ih

/-- After protection the path still leads somewhere, and no lambda on it binds a protected name. -/
theorem Path.protect (h : Path t address binders sub) (free : List String) :
    ∃ binders' sub', Path (t.protect free address) address binders' sub' ∧
      ∀ name ∈ free, name ∉ binders' := by
  fun_induction Term.protect free address t generalizing binders sub with
  | case1 steps param body clash fresh =>
    rename_i ih
    have notUsed : fresh ∉ free := fun mem =>
      freshName_not_mem param (body.names ++ free) (List.mem_append_right _ mem)
    obtain - | - | inBody | - := h
    obtain ⟨binders', sub', path, apart⟩ := ih (inBody.renameFree param fresh)
    exact ⟨fresh :: binders', sub', .body path, forall_not_mem_cons notUsed apart⟩
  | case2 steps param body noClash ih =>
    obtain - | - | inBody | - := h
    obtain ⟨binders', sub', path, apart⟩ := ih inBody
    exact ⟨param :: binders', sub', .body path, forall_not_mem_cons noClash apart⟩
  | case3 steps func arg ih =>
    obtain - | inFunc | - | - := h
    obtain ⟨binders', sub', path, apart⟩ := ih inFunc
    exact ⟨binders', sub', .func path, apart⟩
  | case4 steps func arg ih =>
    obtain - | - | - | inArg := h
    obtain ⟨binders', sub', path, apart⟩ := ih inArg
    exact ⟨binders', sub', .arg path, apart⟩
  | case5 steps t notBody notFunc notArg =>
    cases h with
    | root t => exact ⟨[], t, .root t, fun _ _ => List.not_mem_nil⟩
    | func _ => exact absurd rfl (notFunc _ _ _ rfl)
    | body _ => exact absurd rfl (notBody _ _ _ rfl)
    | arg _ => exact absurd rfl (notArg _ _ _ rfl)

end LambdaWorkbench.Term
